/-
# What is printed as JSON is JSON

`disp_j` prints a value as a JSON document that denotes it, if nothing in it goes wrong. What can
is this. A control character other than a newline is printed as it is, and a NUL ends a string. A
reference without a key, its class being gone, is printed as `<LOSTKEY>`, which is no JSON; one to
an object that has been deleted is printed as the key that is still there. The symbol `null` is
printed without quotes where it is a key too, and the least integer as `-(`. A list headed by `@` is
printed between braces also where no keys and values follow, and what is printed for one headed by
`:` depends on slots and not on the list.
-/

import Senna.Scm.DispJson

namespace Senna.Scm

open Senna.Lib (Json)
open Senna.Lib.Json
open Senna.Str (strEscSource strEscSource_length)

/-- What a symbol stands for: its name, without a colon at the start. -/
def symText (name : List UInt8) : List UInt8 :=
  if name.head? = some 0x3a then name.tail else name

/-- What a key stands for, if the value is one. -/
def keyText : Val → Option (List UInt8)
  | .bulk value => some value
  | .symbol name => some (symText name)
  | _ => none

/-- A reference denotes its key. -/
def denObject (key : Option (List UInt8)) : Json := key.elim .null .str

mutual

/-- Keys and values by turns. -/
def isMembers : Val → Bool
  | .nil => true
  | .pair key cdr => (keyText key).isSome && isValues cdr
  | _ => false

/-- A value, and keys and values by turns. -/
def isValues : Val → Bool
  | .pair _ cdr => isMembers cdr
  | _ => false

end

mutual

/-- The JSON value that a value denotes: a list headed by `@` is an object where keys and values
follow, and otherwise an array like any other. -/
def den : Val → Json
  | .nil => .arr []
  | .t => .bool true
  | .f => .bool false
  | .symbol name => if name = symNull then .null else .str (symText name)
  | .bulk value => .str value
  | .int i => .num i.val
  | .object key => denObject key
  | .records keys => .arr (keys.map denObject)
  | .pair car cdr =>
      if car = .symbol symAt ∧ isMembers cdr then .obj (denMembers cdr)
      else .arr (den car :: denElements cdr)

/-- The elements of a list. -/
def denElements : Val → List Json
  | .pair car cdr => den car :: denElements cdr
  | _ => []

/-- The members of an object. -/
def denMembers : Val → List (List UInt8 × Json)
  | .pair key cdr => denValues ((keyText key).getD []) cdr
  | _ => []

/-- The members of an object from behind the key `key` on. -/
def denValues (key : List UInt8) : Val → List (List UInt8 × Json)
  | .pair car cdr => (key, den car) :: denMembers cdr
  | _ => []

end

/-- A name or a key: characters, none of which is NUL. -/
def IsName (name : List UInt8) : Prop := IsUtf8 name ∧ (0 : UInt8) ∉ name

mutual

/-- Strings, names and keys are well-formed, and lists are proper. -/
def Proper : Val → Prop
  | .bulk value => IsUtf8 value
  | .symbol name => IsName name
  | .object key => ∀ name ∈ key, IsName name
  | .records keys => ∀ key ∈ keys, ∀ name ∈ key, IsName name
  | .pair car cdr => Proper car ∧ ProperList cdr
  | _ => True

/-- A proper list. -/
def ProperList : Val → Prop
  | .nil => True
  | .pair car cdr => Proper car ∧ ProperList cdr
  | _ => False

end

/-- A reference to an object of a class that is there, with a key of printable characters. -/
def CleanObject : Option (List UInt8) → Prop
  | some key => Printable key
  | none => False

/-- A key that is printed as a string. -/
def CleanKey : Val → Prop
  | .bulk value => Printable value
  | .symbol name => name ≠ symNull ∧ Printable name
  | _ => False

mutual

/-- No control character but newlines in a string, a name or a key, no reference without a key, no
least integer, no `null` among the keys, and no list headed by `:`, or by `@` where no keys and
values follow. -/
def Clean : Val → Prop
  | .bulk value => Printable value
  | .symbol name => Printable name
  | .int i => i ≠ I64.least
  | .object key => CleanObject key
  | .records keys => ∀ key ∈ keys, CleanObject key
  | .pair car cdr =>
      if car = .symbol symColon then False
      else if car = .symbol symAt then CleanMembers cdr
      else Clean car ∧ CleanElements cdr
  | _ => True

/-- The elements of a list are clean. -/
def CleanElements : Val → Prop
  | .pair car cdr => Clean car ∧ CleanElements cdr
  | _ => True

/-- The members of an object are clean. -/
def CleanMembers : Val → Prop
  | .nil => True
  | .pair key cdr => CleanKey key ∧ CleanValues cdr
  | _ => False

/-- The members of an object are clean from behind a key on. -/
def CleanValues : Val → Prop
  | .pair car cdr => Clean car ∧ CleanMembers cdr
  | _ => False

end

section

variable {name r r' : List UInt8} {fmt : Val → List UInt8}

theorem strEscSource_of_name (h : IsName name) : strEscSource name (-1) = name := by
  rw [strEscSource, if_pos (by decide), List.takeWhile_eq_self_iff]
  exact fun b hb => decide_eq_true fun hzero => h.2 (hzero ▸ hb)

/-- The bytes behind a character of ASCII. -/
theorem IsUtf8.tail {b : UInt8} (hb : b < 0x80) {p : List UInt8} (h : IsUtf8 (b :: p)) :
    IsUtf8 p := by
  obtain ⟨cs, hcs⟩ := h
  cases cs with
  | nil => cases hcs
  | cons c cs =>
      rw [show utf8 (c :: cs) = String.utf8EncodeChar c ++ utf8 cs from List.flatMap_cons] at hcs
      rcases utf8EncodeChar_shape c with ⟨x, -, hchar⟩ | ⟨x, t, hchar, -, hx, -⟩
      · rw [hchar] at hcs
        exact ⟨cs, (List.cons.inj hcs).2⟩
      · rw [hchar] at hcs
        exact absurd ((List.cons.inj hcs).1 ▸ hb) (UInt8.not_lt.mpr hx)

theorem isName_symText (h : IsName name) : IsName (symText name) := by
  unfold symText
  split_ifs with hcolon
  · cases name with
    | nil => cases hcolon
    | cons b p =>
        obtain rfl := Option.some.inj hcolon
        exact ⟨IsUtf8.tail (by decide) h.1, fun hzero => h.2 (List.mem_cons_of_mem _ hzero)⟩
  · exact h

theorem printable_symText : Printable (symText name) ↔ Printable name := by
  unfold symText
  split_ifs with hcolon
  · cases name with
    | nil => cases hcolon
    | cons b p =>
        obtain rfl := Option.some.inj hcolon
        exact ⟨fun h => printable_cons.mpr ⟨by decide, h⟩, fun h => (printable_cons.mp h).2⟩
  · rfl

theorem dispSymbol_eq (hnull : name ≠ symNull) :
    dispSymbol .utf8 name = escaped .utf8 (symText name) (-1) := by
  rw [dispSymbol, if_neg hnull, symText]

/-- The text of an object is read as its key. -/
theorem readValue_dispObject {key : Option (List UInt8)} (hkey : ∀ name ∈ key, IsName name)
    (hclean : CleanObject key) (n : Nat) :
    readValue (n + 1) (dispObject .utf8 key ++ r) = some (denObject key, r) := by
  cases key with
  | none => exact hclean.elim
  | some name =>
      have hname := hkey name rfl
      exact readValue_escaped hname.1 (strEscSource_of_name hname) hclean n

theorem cleanObject_of_readValue {key : Option (List UInt8)} (hkey : ∀ name ∈ key, IsName name)
    {n : Nat} (h : readValue n (dispObject .utf8 key ++ r) = some (denObject key, r')) :
    CleanObject key ∧ r' = r := by
  cases key with
  | none =>
      cases n with
      | zero => rw [readValue] at h; cases h
      | succ n =>
          rw [dispObject, List.cons_append, readValue_scalar n rfl (by decide),
            readScalar_number (by decide), readNumber_plain (by decide),
            readMagnitude_none rfl] at h
          cases h
  | some name =>
      have hname := hkey name rfl
      exact printable_of_readValue hname.1 (strEscSource_of_name hname) h

/-- The text of a clean key. -/
theorem readKey_dispJ {key : Val} (hkey : Proper key) (hclean : CleanKey key) :
    readKey (dispJ .utf8 fmt key ++ 0x3a :: r) = some ((keyText key).getD [], r) := by
  cases key with
  | bulk value => exact readKey_escaped hkey (strEscSource_length value) hclean
  | symbol name =>
      have hname := isName_symText hkey
      rw [show dispJ .utf8 fmt (.symbol name) = dispSymbol .utf8 name from rfl,
        dispSymbol_eq hclean.1]
      exact readKey_escaped hname.1 (strEscSource_of_name hname) (printable_symText.mpr hclean.2)
  | nil | t | f | int | object | records | pair => exact hclean.elim

theorem cleanKey_of_readKey {key : Val} (hkey : Proper key) (htext : (keyText key).isSome)
    (h : readKey (dispJ .utf8 fmt key ++ 0x3a :: r) = some ((keyText key).getD [], r')) :
    CleanKey key ∧ r' = r := by
  cases key with
  | bulk value => exact printable_of_readKey hkey (strEscSource_length value) h
  | symbol name =>
      have hname := isName_symText hkey
      rw [show dispJ .utf8 fmt (.symbol name) = dispSymbol .utf8 name from rfl] at h
      by_cases hnull : name = symNull
      · rw [hnull, dispSymbol, if_pos rfl] at h
        cases h
      · rw [dispSymbol_eq hnull] at h
        obtain ⟨hprint, hr⟩ := printable_of_readKey hname.1 (strEscSource_of_name hname) h
        exact ⟨⟨hnull, printable_symText.mp hprint⟩, hr⟩
  | nil | t | f | int | object | records | pair => cases htext

end

section

variable {fmt : Val → List UInt8}

theorem follows_closer (hashp : Bool) (r : List UInt8) : Follows (closer hashp :: r) := by
  cases hashp <;> exact fun b hb => Option.some.inj hb ▸ by decide

theorem follows_dispRest (fmt : Val → List UInt8) {v : Val} (hv : ProperList v) (hashp o : Bool)
    (r : List UInt8) :
    Follows (dispRest .utf8 fmt hashp o v ++ r) := by
  cases v with
  | nil => exact follows_closer hashp r
  | pair car cdr =>
      rw [dispRest, separator]
      split_ifs <;> exact fun b hb => Option.some.inj hb ▸ by decide
  | _ => exact hv.elim

/-- What is behind the first element of a list. -/
theorem dispRest_list {o : Bool} (car cdr : Val) :
    dispRest .utf8 fmt false o (.pair car cdr) =
      0x2c :: 0x20 :: (dispJ .utf8 fmt car ++ dispRest .utf8 fmt false (!o) cdr) := by
  rw [dispRest, separator, if_neg (by simp)]
  rfl

/-- What is behind a key. -/
theorem dispRest_key (car cdr : Val) :
    dispRest .utf8 fmt true false (.pair car cdr) =
      0x3a :: 0x20 :: (dispJ .utf8 fmt car ++ dispRest .utf8 fmt true true cdr) := by
  rw [dispRest, separator, if_pos (by simp)]
  rfl

/-- What is behind the value of a key. -/
theorem dispRest_value (key cdr : Val) :
    dispRest .utf8 fmt true true (.pair key cdr) =
      0x2c :: 0x20 :: dispMembers .utf8 fmt (.pair key cdr) := by
  rw [dispRest, separator, if_neg (by simp), dispMembers]
  rfl

/-- The text of `v` is read as what `v` denotes, wherever it stands. -/
structure Reads (fmt : Val → List UInt8) (v : Val) : Prop where
  value : Proper v → Clean v → ∀ n r, Follows r → 2 * (dispJ .utf8 fmt v).length + 1 ≤ n →
    readValue n (dispJ .utf8 fmt v ++ r) = some (den v, r)
  elements : ProperList v → CleanElements v → ∀ n p j o r,
    readValue n p = some (j, dispRest .utf8 fmt false o v ++ r) →
    2 * (dispRest .utf8 fmt false o v).length ≤ n →
    readElements (n + 1) p = some (j :: denElements v, r)
  members : ProperList v → CleanMembers v → v ≠ .nil → ∀ n r,
    2 * (dispMembers .utf8 fmt v).length + 2 ≤ n →
    readMembers n (dispMembers .utf8 fmt v ++ r) = some (denMembers v, r)
  values : ProperList v → CleanValues v → ∀ n key p r,
    readKey p = some (key, (dispRest .utf8 fmt true false v).tail ++ r) →
    2 * (dispRest .utf8 fmt true false v).length ≤ n →
    readMembers (n + 1) p = some (denValues key v, r)

theorem Reads.atom {v : Val} (hlist : ¬ ProperList v)
    (hvalue : Proper v → Clean v → ∀ n r, Follows r →
      readValue (n + 1) (dispJ .utf8 fmt v ++ r) = some (den v, r)) : Reads fmt v where
  value hproper hclean n r hr hn := by
    obtain ⟨n, rfl⟩ : ∃ m, n = m + 1 := ⟨n - 1, by omega⟩
    exact hvalue hproper hclean n r hr
  elements h := absurd h hlist
  members h := absurd h hlist
  values h := absurd h hlist

theorem Reads.nil : Reads fmt .nil where
  value _ _ n r _ hn := by
    obtain ⟨n, rfl⟩ : ∃ m, n = m + 1 := ⟨n - 1, by omega⟩
    exact (readValue_bracket n (0x5d :: r)).trans (if_pos rfl)
  elements _ _ n p j o r hread _ := by
    rw [readElements, hread, Option.bind_some]
    exact readNext_closer rfl _ j r
  members _ _ h := absurd rfl h
  values _ h := h.elim

theorem isMembers_of_clean (v : Val) :
    (CleanMembers v → isMembers v = true) ∧ (CleanValues v → isValues v = true) := by
  have hkey : ∀ key, CleanKey key → (keyText key).isSome = true := by
    intro key h
    cases key with
    | bulk => rfl
    | symbol => rfl
    | _ => exact h.elim
  induction v with
  | pair car cdr _ ih =>
      refine ⟨fun h => ?_, fun h => ih.1 h.2⟩
      rw [isMembers, hkey car h.1, ih.2 h.2]
      rfl
  | nil => exact ⟨fun _ => rfl, fun h => h.elim⟩
  | _ => exact ⟨fun h => h.elim, fun h => h.elim⟩

theorem Reads.pair {car cdr : Val} (hcar : Reads fmt car) (hcdr : Reads fmt cdr) :
    Reads fmt (.pair car cdr) where
  value hproper hclean n r hr hn := by
    obtain ⟨hcarProper, hcdrProper⟩ := hproper
    obtain ⟨n, rfl⟩ : ∃ m, n = m + 1 := ⟨n - 1, by omega⟩
    rw [Clean] at hclean
    rw [dispJ] at hn ⊢
    split_ifs at hclean hn ⊢ with hcolon hat
    · rw [den, if_pos ⟨hat, (isMembers_of_clean cdr).1 hclean⟩, List.cons_append]
      by_cases hnil : cdr = .nil
      · rw [hnil]
        exact (readValue_brace n (0x7d :: r)).trans (if_pos rfl)
      · rw [List.length_cons] at hn
        have hread := hcdr.members hcdrProper hclean hnil n r (by omega)
        rw [readValue_brace, if_neg (head_of_readMembers hread), hread]
        rfl
    · rw [List.cons_append, List.length_cons, List.length_append] at hn
      obtain ⟨n, rfl⟩ : ∃ m, n = m + 1 := ⟨n - 1, by omega⟩
      have hread := hcar.value hcarProper hclean.1 n _
          (follows_dispRest fmt hcdrProper false false r)
        (by omega)
      have hrest := hcdr.elements hcdrProper hclean.2 n _ _ false r hread (by omega)
      rw [den, if_neg fun h => hat h.1, List.cons_append, List.cons_append, List.append_assoc,
        readValue_bracket, if_neg (head_of_readValue hread), hrest]
      rfl
  elements hproper hclean n p j o r hread hn := by
    obtain ⟨hcarProper, hcdrProper⟩ := hproper
    rw [dispRest_list] at hread hn
    rw [List.length_cons, List.length_cons, List.length_append] at hn
    obtain ⟨n, rfl⟩ : ∃ m, n = m + 1 := ⟨n - 1, by omega⟩
    have hnext := hcar.value hcarProper hclean.1 n _ (follows_dispRest fmt hcdrProper false (!o) r)
      (by omega)
    rw [← readValue_blank, ← List.append_assoc] at hnext
    have hrest := hcdr.elements hcdrProper hclean.2 n _ _ (!o) r hnext (by omega)
    rw [readElements, hread, Option.bind_some, List.cons_append, readNext_comma (by decide),
      List.cons_append, hrest]
    rfl
  members hproper hclean _ n r hn := by
    obtain ⟨hcarProper, hcdrProper⟩ := hproper
    obtain ⟨hkey, hvalues⟩ := hclean
    rw [dispMembers] at hn ⊢
    rw [List.length_append] at hn
    obtain ⟨n, rfl⟩ : ∃ m, n = m + 1 := ⟨n - 1, by omega⟩
    refine hcdr.values hcdrProper hvalues n _ _ r ?_ (by omega)
    cases cdr with
    | pair a d =>
        rw [dispRest_key, List.append_assoc]
        exact readKey_dispJ hcarProper hkey
    | _ => exact hvalues.elim
  values hproper hclean n key p r hread hn := by
    obtain ⟨hcarProper, hcdrProper⟩ := hproper
    obtain ⟨hcarClean, hcdrClean⟩ := hclean
    rw [dispRest_key] at hread hn
    rw [List.length_cons, List.length_cons, List.length_append] at hn
    have hvalue := hcar.value hcarProper hcarClean n _ (follows_dispRest fmt hcdrProper true true r)
      (by omega)
    rw [← readValue_blank, ← List.append_assoc] at hvalue
    rw [readMembers, hread, Option.bind_some]
    change ((readValue n (0x20 :: (_ ++ r))).bind _) = _
    rw [hvalue, Option.bind_some]
    cases cdr with
    | nil => exact readNext_closer rfl _ _ r
    | pair k d =>
        have hrest := hcdr.members hcdrProper hcdrClean Val.noConfusion n r (by
          rw [dispRest_value, List.length_cons, List.length_cons] at hn
          omega)
        rw [dispRest_value, List.cons_append, readNext_comma (by decide), List.cons_append,
          readMembers_blank, hrest]
        rfl
    | _ => exact hcdrProper.elim

/-- The references of a set of records, as a list. -/
def recordsList : List (Option (List UInt8)) → Val
  | [] => .nil
  | key :: keys => .pair (.object key) (recordsList keys)

theorem dispRest_recordsList (o : Bool) (i : Nat) (keys : List (Option (List UInt8))) :
    dispRest .utf8 fmt false o (recordsList keys) = dispRecords .utf8 (i + 1) keys := by
  induction keys generalizing i o with
  | nil => rfl
  | cons key keys ih =>
      rw [recordsList, dispRest_list, ih (!o) (i + 1), dispRecords, if_pos (Nat.succ_ne_zero i)]
      rfl

/-- A set of records is printed like the list of its references. -/
theorem dispJ_records (keys : List (Option (List UInt8))) :
    dispJ .utf8 fmt (.records keys) = dispJ .utf8 fmt (recordsList keys) := by
  cases keys with
  | nil => rfl
  | cons key keys =>
      rw [recordsList, dispJ, if_neg nofun, if_neg nofun, dispRest_recordsList false 0]
      rfl

theorem denElements_recordsList (keys : List (Option (List UInt8))) :
    denElements (recordsList keys) = keys.map denObject := by
  induction keys with
  | nil => rfl
  | cons key keys ih => rw [recordsList, denElements, ih, List.map_cons, den]

theorem den_records (keys : List (Option (List UInt8))) :
    den (.records keys) = den (recordsList keys) := by
  cases keys with
  | nil => rfl
  | cons key keys =>
      have hat : ¬ (Val.object key = .symbol symAt ∧ isMembers (recordsList keys) = true) :=
        fun h => nomatch h.1
      rw [recordsList, den, den, if_neg hat, denElements_recordsList, List.map_cons, den]

theorem properList_recordsList {keys : List (Option (List UInt8))} (h : Proper (.records keys)) :
    ProperList (recordsList keys) := by
  induction keys with
  | nil => trivial
  | cons key keys ih =>
      obtain ⟨hkey, hkeys⟩ := List.forall_mem_cons.mp h
      exact ⟨hkey, ih hkeys⟩

theorem cleanElements_recordsList (keys : List (Option (List UInt8))) :
    CleanElements (recordsList keys) ↔ ∀ key ∈ keys, CleanObject key := by
  induction keys with
  | nil => exact iff_of_true trivial (List.forall_mem_nil _)
  | cons key keys ih => rw [recordsList, CleanElements, ih, List.forall_mem_cons, Clean]

theorem proper_recordsList {keys : List (Option (List UInt8))} (h : Proper (.records keys)) :
    Proper (recordsList keys) := by
  have hlist := properList_recordsList h
  cases keys with
  | nil => trivial
  | cons key keys => exact hlist

theorem clean_recordsList (keys : List (Option (List UInt8))) :
    Clean (.records keys) ↔ Clean (recordsList keys) := by
  cases keys with
  | nil => exact iff_of_true (List.forall_mem_nil _) trivial
  | cons key keys =>
      rw [Clean, ← cleanElements_recordsList, recordsList, Clean, if_neg nofun, if_neg nofun,
        CleanElements]

theorem Reads.object (key : Option (List UInt8)) : Reads fmt (.object key) :=
  .atom id fun hproper hclean n _ _ => readValue_dispObject hproper hclean n

theorem Reads.recordsList (keys : List (Option (List UInt8))) :
    Reads fmt (recordsList keys) := by
  induction keys with
  | nil => exact .nil
  | cons key keys ih => exact .pair (.object key) ih

theorem reads (v : Val) : Reads fmt v := by
  induction v with
  | nil => exact .nil
  | t => exact .atom id fun _ _ n r _ => readValue_scalar n rfl (by decide) _
  | f => exact .atom id fun _ _ n r _ => readValue_scalar n rfl (by decide) _
  | symbol name =>
      refine .atom id fun hproper hclean n r _ => ?_
      change readValue (n + 1) (dispSymbol .utf8 name ++ r) = _
      by_cases hnull : name = symNull
      · rw [den, if_pos hnull, dispSymbol, if_pos hnull]
        exact readValue_scalar n rfl (by decide) _
      · have hname := isName_symText hproper
        rw [den, if_neg hnull, dispSymbol_eq hnull]
        exact readValue_escaped hname.1 (strEscSource_of_name hname)
          (printable_symText.mpr hclean) n
  | bulk value =>
      exact .atom id fun hproper hclean n _ _ =>
        readValue_escaped hproper (strEscSource_length value) hclean n
  | int i => exact .atom id fun _ hclean n _ hr => readValue_int hclean hr n
  | object key => exact .object key
  | records keys =>
      refine ⟨fun hproper hclean n r hr hn => ?_, fun h => h.elim, fun h => h.elim, fun h => h.elim⟩
      rw [dispJ_records] at hn ⊢
      rw [den_records]
      exact (Reads.recordsList keys).value (proper_recordsList hproper)
        ((clean_recordsList keys).mp hclean) n r hr hn
  | pair car cdr hcar hcdr => exact .pair hcar hcdr

end

/-- Nothing is printed for a list headed by `:`. -/
def noFormat : Val → List UInt8 := fun _ => []

/-- Where the text of `v` is read as what `v` denotes, `v` is clean, and its text has been read. -/
structure OnlyReads (v : Val) : Prop where
  value : Proper v → ∀ n r r', Follows r →
    readValue n (dispJ .utf8 noFormat v ++ r) = some (den v, r') → Clean v ∧ r' = r
  elements : ProperList v → ∀ n p j j' o r r',
    readValue n p = some (j, dispRest .utf8 noFormat false o v ++ r) → Follows r →
    readElements (n + 1) p = some (j' :: denElements v, r') → CleanElements v ∧ r' = r
  members : ProperList v → isMembers v = true → v ≠ .nil → ∀ n r r', Follows r →
    readMembers n (dispMembers .utf8 noFormat v ++ r) = some (denMembers v, r') →
    CleanMembers v ∧ r' = r
  values : ProperList v → isValues v = true → ∀ n key p r r', Follows r →
    readKey p = some (key, (dispRest .utf8 noFormat true false v).tail ++ r) →
    readMembers (n + 1) p = some (denValues key v, r') → CleanValues v ∧ r' = r

theorem OnlyReads.atom {v : Val} (hlist : ¬ ProperList v)
    (hvalue : Proper v → ∀ n r r',
      readValue n (dispJ .utf8 noFormat v ++ r) = some (den v, r') → Clean v ∧ r' = r) :
    OnlyReads v where
  value hproper n r r' _ h := hvalue hproper n r r' h
  elements h := absurd h hlist
  members h := absurd h hlist
  values h := absurd h hlist

/-- Where nothing is printed nothing is read. -/
theorem readValue_follows (n : Nat) {r : List UInt8} (hr : Follows r) : readValue n r = none := by
  cases r with
  | nil =>
      cases n with
      | zero => rw [readValue]
      | succ n => rw [readValue]; rfl
  | cons b p => exact readValue_delimiter n (hr b rfl) p

/-- A literal is read in one way. -/
theorem eq_of_readValue {n : Nat} {p r r' : List UInt8} {j j' : Json}
    (hread : ∀ m, readValue (m + 1) p = some (j, r)) (h : readValue n p = some (j', r')) :
    r' = r := by
  cases n with
  | zero => rw [readValue] at h; cases h
  | succ n =>
      rw [hread n] at h
      cases h
      rfl

theorem OnlyReads.nil : OnlyReads .nil where
  value _ n r r' _ h :=
    ⟨trivial, eq_of_readValue (fun m => (readValue_bracket m (0x5d :: r)).trans (if_pos rfl)) h⟩
  elements _ n p j j' o r r' hread _ h := by
    rw [readElements, hread, Option.bind_some] at h
    have hclose : readNext 0x5d (readElements n) j (0x5d :: r) = some ([j], r) :=
      readNext_closer rfl _ j r
    cases hclose.symm.trans h
    exact ⟨trivial, rfl⟩
  members _ _ h := absurd rfl h
  values _ h := nomatch h

theorem denMembers_ne_nil {v : Val} (h : isMembers v = true) (hne : v ≠ .nil) :
    denMembers v ≠ [] := by
  cases v with
  | pair key cdr =>
      cases cdr with
      | pair a d => exact List.cons_ne_nil _ _
      | _ => cases (Bool.and_eq_true _ _ ▸ h : _ ∧ _).2
  | nil => exact absurd rfl hne
  | _ => cases h

/-- The element in front is read as what it denotes. -/
theorem OnlyReads.first {car cdr : Val} (hcar : OnlyReads car) (hcdr : OnlyReads cdr)
    (hcarProper : Proper car) (hcdrProper : ProperList cdr) {n : Nat} {p r r' : List UInt8}
    {o : Bool} (hp : ∀ m, readValue m p =
      readValue m (dispJ .utf8 noFormat car ++ (dispRest .utf8 noFormat false o cdr ++ r)))
    (hr : Follows r) (h : readElements n p = some (den car :: denElements cdr, r')) :
    (Clean car ∧ CleanElements cdr) ∧ r' = r := by
  obtain _ | n := n
  · rw [readElements] at h; cases h
  have hall := h
  rw [readElements] at h
  obtain ⟨⟨j, q⟩, hread, hnext⟩ := Option.bind_eq_some_iff.mp h
  obtain ⟨t, hhead⟩ := readNext_head hnext
  obtain ⟨rfl, -⟩ := List.cons.inj hhead
  obtain ⟨hclean, rfl⟩ := hcar.value hcarProper n _ q
    (follows_dispRest noFormat hcdrProper false o r) ((hp n).symm.trans hread)
  obtain ⟨hrest, rfl⟩ := hcdr.elements hcdrProper n p _ _ o r r' hread hr hall
  exact ⟨⟨hclean, hrest⟩, rfl⟩

theorem OnlyReads.pair {car cdr : Val} (hcar : OnlyReads car) (hcdr : OnlyReads cdr) :
    OnlyReads (.pair car cdr) where
  value hproper n r r' hr h := by
    obtain ⟨hcarProper, hcdrProper⟩ := hproper
    rw [Clean]
    rw [dispJ] at h
    split_ifs at h ⊢ with hcolon hat
    · rw [noFormat, List.nil_append, readValue_follows n hr] at h
      cases h
    · obtain _ | n := n
      · rw [readValue] at h; cases h
      rw [den] at h
      split_ifs at h with hmembers
      · rw [List.cons_append, readValue_brace] at h
        by_cases hnil : cdr = .nil
        · rw [hnil] at h ⊢
          have hempty := (if_pos rfl).symm.trans h
          cases hempty
          exact ⟨trivial, rfl⟩
        · split_ifs at h with hclose
          · have hden := (Json.obj.inj (Prod.mk.inj (Option.some.inj h)).1).symm
            exact absurd hden (denMembers_ne_nil hmembers.2 hnil)
          · obtain ⟨⟨members, q⟩, hread, heq⟩ := Option.map_eq_some_iff.mp h
            cases heq
            exact hcdr.members hcdrProper hmembers.2 hnil n r _ hr hread
      · obtain ⟨members, hobj⟩ := obj_of_readValue h
        cases hobj
    · obtain _ | n := n
      · rw [readValue] at h; cases h
      rw [den, if_neg fun hmembers => hat hmembers.1, List.cons_append, List.cons_append,
        List.append_assoc, readValue_bracket] at h
      split_ifs at h with hclose
      · cases h
      · obtain ⟨⟨elements, q⟩, hread, heq⟩ := Option.map_eq_some_iff.mp h
        cases heq
        exact hcar.first hcdr hcarProper hcdrProper (fun _ => rfl) hr hread
  elements hproper n p j j' o r r' hread hr h := by
    obtain ⟨hcarProper, hcdrProper⟩ := hproper
    rw [dispRest_list] at hread
    rw [readElements, hread, Option.bind_some, List.cons_append, readNext_comma (by decide)] at h
    obtain ⟨⟨elements, q⟩, hrest, heq⟩ := Option.map_eq_some_iff.mp h
    cases heq
    refine hcar.first hcdr hcarProper hcdrProper (o := !o) (fun m => ?_) hr hrest
    rw [List.cons_append, readValue_blank, List.append_assoc]
  members hproper hmembers _ n r r' hr h := by
    obtain ⟨hcarProper, hcdrProper⟩ := hproper
    rw [isMembers, Bool.and_eq_true] at hmembers
    obtain _ | n := n
    · rw [readMembers] at h; cases h
    have hall := h
    cases cdr with
    | pair a d =>
        rw [readMembers] at h
        obtain ⟨⟨key, q⟩, hkey, h⟩ := Option.bind_eq_some_iff.mp h
        obtain ⟨⟨j, q'⟩, -, hnext⟩ := Option.bind_eq_some_iff.mp h
        obtain ⟨t, hhead⟩ := readNext_head hnext
        obtain ⟨rfl, -⟩ := Prod.mk.inj (List.cons.inj hhead).1
        have htext := hkey
        rw [dispMembers, dispRest_key, List.append_assoc] at htext
        obtain ⟨hclean, rfl⟩ := cleanKey_of_readKey hcarProper hmembers.1 htext
        have hrest : readKey (dispMembers .utf8 noFormat (.pair car (.pair a d)) ++ r) =
            some ((keyText car).getD [],
              (dispRest .utf8 noFormat true false (.pair a d)).tail ++ r) := by
          rw [hkey, dispRest_key]
          rfl
        obtain ⟨hvalues, rfl⟩ := hcdr.values hcdrProper hmembers.2 n _ _ r r' hr hrest hall
        exact ⟨⟨hclean, hvalues⟩, rfl⟩
    | nil => cases hmembers.2
    | _ => exact hcdrProper.elim
  values hproper hvalues n key p r r' hr hread h := by
    obtain ⟨hcarProper, hcdrProper⟩ := hproper
    rw [dispRest_key] at hread
    rw [readMembers, hread, Option.bind_some] at h
    obtain ⟨⟨j, q⟩, hvalue, hnext⟩ := Option.bind_eq_some_iff.mp h
    obtain ⟨t, hhead⟩ := readNext_head hnext
    obtain ⟨-, rfl⟩ := Prod.mk.inj (List.cons.inj hhead).1
    have htext : readValue n (dispJ .utf8 noFormat car ++
        (dispRest .utf8 noFormat true true cdr ++ r)) = some (den car, q) := by
      rw [← readValue_blank, ← List.append_assoc]
      exact hvalue
    obtain ⟨hclean, rfl⟩ := hcar.value hcarProper n _ q
      (follows_dispRest noFormat hcdrProper true true r) htext
    cases cdr with
    | nil =>
        have hclose : readNext 0x7d (readMembers n) (key, den car) (0x7d :: r) =
            some ([(key, den car)], r) := readNext_closer rfl _ _ r
        cases hclose.symm.trans hnext
        exact ⟨⟨hclean, trivial⟩, rfl⟩
    | pair k d =>
        rw [dispRest_value, List.cons_append, readNext_comma (by decide), List.cons_append,
          readMembers_blank] at hnext
        obtain ⟨⟨members, q⟩, hrest, heq⟩ := Option.map_eq_some_iff.mp hnext
        cases heq
        obtain ⟨hrestClean, rfl⟩ := hcdr.members hcdrProper hvalues Val.noConfusion n r _ hr hrest
        exact ⟨⟨hclean, hrestClean⟩, rfl⟩
    | _ => exact hcdrProper.elim

theorem OnlyReads.object (key : Option (List UInt8)) : OnlyReads (.object key) :=
  .atom id fun hproper _ _ _ h => cleanObject_of_readValue hproper h

theorem OnlyReads.recordsList (keys : List (Option (List UInt8))) :
    OnlyReads (recordsList keys) := by
  induction keys with
  | nil => exact .nil
  | cons key keys ih => exact .pair (.object key) ih

theorem onlyReads (v : Val) : OnlyReads v := by
  induction v with
  | nil => exact .nil
  | t =>
      exact .atom id fun _ _ r _ h =>
        ⟨trivial, eq_of_readValue (fun m => readValue_scalar m rfl (by decide) _) h⟩
  | f =>
      exact .atom id fun _ _ r _ h =>
        ⟨trivial, eq_of_readValue (fun m => readValue_scalar m rfl (by decide) _) h⟩
  | symbol name =>
      refine .atom id fun hproper n r r' h => ?_
      change readValue n (dispSymbol .utf8 name ++ r) = _ at h
      by_cases hnull : name = symNull
      · rw [dispSymbol, if_pos hnull] at h
        refine ⟨hnull ▸ (by decide : Printable symNull), ?_⟩
        exact eq_of_readValue (fun m => readValue_scalar m rfl (by decide) _) h
      · have hname := isName_symText hproper
        rw [den, if_neg hnull, dispSymbol_eq hnull] at h
        obtain ⟨hprint, hr⟩ := printable_of_readValue hname.1 (strEscSource_of_name hname) h
        exact ⟨printable_symText.mp hprint, hr⟩
  | bulk value =>
      exact .atom id fun hproper _ _ _ h =>
        printable_of_readValue hproper (strEscSource_length value) h
  | int i =>
      refine ⟨fun _ n r r' hr h => ?_, fun h => h.elim, fun h => h.elim, fun h => h.elim⟩
      change readValue n (dispInt i ++ r) = _ at h
      by_cases hi : i = I64.least
      · rw [hi, readValue_least] at h
        cases h
      · exact ⟨hi, eq_of_readValue (readValue_int hi hr) h⟩
  | object key => exact .object key
  | records keys =>
      refine ⟨fun hproper n r r' hr h => ?_, fun h => h.elim, fun h => h.elim, fun h => h.elim⟩
      rw [dispJ_records, den_records] at h
      rw [clean_recordsList]
      exact (OnlyReads.recordsList keys).value (proper_recordsList hproper) n r r' hr h
  | pair car cdr hcar hcdr => exact .pair hcar hcdr

section

variable {fmt : Val → List UInt8}

theorem isUtf8_dispObject {key : Option (List UInt8)} (hkey : ∀ name ∈ key, IsName name)
    (hclean : CleanObject key) : IsUtf8 (dispObject .utf8 key) := by
  cases key with
  | none => exact hclean.elim
  | some name =>
      have hname := hkey name rfl
      exact isUtf8_escaped hname.1 (strEscSource_of_name hname) hclean

theorem isUtf8_dispSymbol {name : List UInt8} (hname : IsName name) (hclean : Printable name) :
    IsUtf8 (dispSymbol .utf8 name) := by
  by_cases hnull : name = symNull
  · rw [dispSymbol, if_pos hnull]
    exact .ascii (by decide)
  · have htext := isName_symText hname
    rw [dispSymbol_eq hnull]
    exact isUtf8_escaped htext.1 (strEscSource_of_name htext) (printable_symText.mpr hclean)

theorem isUtf8_dispKey {key : Val} (hkey : Proper key) (hclean : CleanKey key) :
    IsUtf8 (dispJ .utf8 fmt key) := by
  cases key with
  | bulk value => exact isUtf8_escaped hkey (strEscSource_length value) hclean
  | symbol name => exact isUtf8_dispSymbol hkey hclean.2
  | _ => exact hclean.elim

theorem isUtf8_separator (hashp o : Bool) : IsUtf8 (separator hashp o) := by
  cases hashp <;> cases o <;> exact .ascii (by decide)

theorem isUtf8_closer (hashp : Bool) : IsUtf8 [closer hashp] := by
  cases hashp <;> exact .ascii (by decide)

/-- What is printed of `v` are characters, as a value, behind an element, and in an object. -/
structure Texts (fmt : Val → List UInt8) (v : Val) : Prop where
  value : Proper v → Clean v → IsUtf8 (dispJ .utf8 fmt v)
  elements : ProperList v → CleanElements v → ∀ o, IsUtf8 (dispRest .utf8 fmt false o v)
  members : ProperList v → CleanMembers v →
    IsUtf8 (dispMembers .utf8 fmt v) ∧ IsUtf8 (dispRest .utf8 fmt true true v)
  values : ProperList v → CleanValues v → IsUtf8 (dispRest .utf8 fmt true false v)

theorem Texts.atom {v : Val} (hlist : ¬ ProperList v)
    (hvalue : Proper v → Clean v → IsUtf8 (dispJ .utf8 fmt v)) : Texts fmt v where
  value := hvalue
  elements h := absurd h hlist
  members h := absurd h hlist
  values h := absurd h hlist

theorem Texts.nil : Texts fmt .nil where
  value _ _ := .cons (by decide) (isUtf8_closer false)
  elements _ _ _ := isUtf8_closer false
  members _ _ := ⟨isUtf8_closer true, isUtf8_closer true⟩
  values _ h := h.elim

theorem Texts.pair {car cdr : Val} (hcar : Texts fmt car) (hcdr : Texts fmt cdr) :
    Texts fmt (.pair car cdr) where
  value hproper hclean := by
    obtain ⟨hcarProper, hcdrProper⟩ := hproper
    rw [Clean] at hclean
    rw [dispJ]
    split_ifs at hclean ⊢ with hcolon hat
    · exact .cons (by decide) (hcdr.members hcdrProper hclean).1
    · exact .append (.cons (by decide) (hcar.value hcarProper hclean.1))
        (hcdr.elements hcdrProper hclean.2 false)
  elements hproper hclean o := by
    rw [dispRest]
    exact .append (.append (isUtf8_separator false o) (hcar.value hproper.1 hclean.1))
      (hcdr.elements hproper.2 hclean.2 (!o))
  members hproper hclean := by
    have hkey : IsUtf8 (dispJ .utf8 fmt car) := isUtf8_dispKey hproper.1 hclean.1
    have hvalues := hcdr.values hproper.2 hclean.2
    rw [dispMembers, dispRest]
    exact ⟨.append hkey hvalues, .append (.append (isUtf8_separator true true) hkey) hvalues⟩
  values hproper hclean := by
    rw [dispRest]
    exact .append (.append (isUtf8_separator true false) (hcar.value hproper.1 hclean.1))
      (hcdr.members hproper.2 hclean.2).2

theorem Texts.object (key : Option (List UInt8)) : Texts fmt (.object key) :=
  .atom id isUtf8_dispObject

theorem Texts.recordsList (keys : List (Option (List UInt8))) : Texts fmt (recordsList keys) := by
  induction keys with
  | nil => exact .nil
  | cons key keys ih => exact .pair (.object key) ih

theorem texts (v : Val) : Texts fmt v := by
  induction v with
  | nil => exact .nil
  | t => exact .atom id fun _ _ => .ascii (p := [0x74, 0x72, 0x75, 0x65]) (by decide)
  | f => exact .atom id fun _ _ => .ascii (p := [0x66, 0x61, 0x6c, 0x73, 0x65]) (by decide)
  | symbol name => exact .atom id isUtf8_dispSymbol
  | bulk value => exact .atom id fun hproper => isUtf8_escaped hproper (strEscSource_length value)
  | int i => exact .atom id fun _ => isUtf8_dispInt
  | object key => exact .object key
  | records keys =>
      refine .atom id fun hproper hclean => ?_
      rw [dispJ_records]
      exact (Texts.recordsList keys).value (proper_recordsList hproper)
        ((clean_recordsList keys).mp hclean)
  | pair car cdr hcar hcdr => exact .pair hcar hcdr

end

/-- **What `disp_j` appends is a JSON document that denotes the value, whatever is printed for lists
headed by `:`, exactly where the value is clean.** -/
theorem dispJ_isDocument_iff {v : Val} (hv : Proper v) :
    (∀ fmt, IsDocument (dispJ .utf8 fmt v) (den v)) ↔ Clean v := by
  constructor
  · intro h
    have hparse := (h noFormat).2
    rw [parse] at hparse
    obtain ⟨⟨j, r⟩, hread, hend⟩ := Option.bind_eq_some_iff.mp hparse
    change (if skipBlanks r = [] then some j else none) = some (den v) at hend
    obtain rfl : j = den v := Option.some.inj (Option.ite_none_right_eq_some.mp hend).2
    rw [← List.append_nil (dispJ .utf8 noFormat v)] at hread
    exact ((onlyReads v).value hv _ [] r follows_nil hread).1
  · intro hclean fmt
    have hread := (reads v).value hv hclean _ [] follows_nil
      (le_refl (2 * (dispJ .utf8 fmt v).length + 1))
    rw [List.append_nil] at hread
    refine ⟨(texts v).value hv hclean, ?_⟩
    rw [parse, hread]
    rfl

/-- A string with the single character tab. -/
def tabText : Val := .bulk [0x09]

theorem proper_tabText : Proper tabText := .ascii (by decide)

/-- The list `(@ "a" -1)` is printed as `{"a": -1}`. -/
theorem dispJ_isDocument_iff_object :
    Proper (.pair (.symbol symAt) (.pair (.bulk [0x61]) (.pair (.int ⟨-1, by decide, by decide⟩)
      .nil))) ∧
    ∀ fmt, IsDocument (dispJ .utf8 fmt (.pair (.symbol symAt) (.pair (.bulk [0x61])
      (.pair (.int ⟨-1, by decide, by decide⟩) .nil)))) (.obj [([0x61], .num (-1))]) := by
  have hproper : Proper (.pair (.symbol symAt) (.pair (.bulk [0x61])
      (.pair (.int ⟨-1, by decide, by decide⟩) .nil))) :=
    ⟨⟨.ascii (by decide), by decide⟩, .ascii (by decide), trivial, trivial⟩
  refine ⟨hproper, fun fmt => ?_⟩
  have hclean : Clean (.pair (.symbol symAt) (.pair (.bulk [0x61])
      (.pair (.int ⟨-1, by decide, by decide⟩) .nil))) := by
    rw [Clean, if_neg (by decide), if_pos rfl]
    exact ⟨(by decide : Printable [0x61]), (by decide : _ ≠ I64.least), trivial⟩
  exact (dispJ_isDocument_iff hproper).mpr hclean fmt

/-- A tab is printed as it is. -/
theorem dispJ_isDocument_fails :
    ¬ ∀ v, Proper v → ∀ fmt, IsDocument (dispJ .utf8 fmt v) (den v) := by
  intro h
  have hparse := (h tabText proper_tabText noFormat).2
  have htext : dispJ .utf8 noFormat tabText = [0x22, 0x09, 0x22] := by decide
  rw [htext] at hparse
  have hnone : parse [0x22, 0x09, 0x22] = none := rfl
  cases hnone.symm.trans hparse

end Senna.Scm
