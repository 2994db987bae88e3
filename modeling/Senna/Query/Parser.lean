/-
# The query parser

`sen_query_open` allocates the pool of cells and, right behind it, a copy of the query text.
`get_expr` and `get_token` call each other and take their cells from the pool; a phrase is
written back into the text without its escapes. A cell that is written behind the pool
overwrites the beginning of the text.

The text is the list of its bytes, behind which there is a NUL; `cur` and the values of bulk
cells are offsets into it. What a byte holds in memory after a cell was written over it is a
parameter.
-/

import Senna.Query.Pragma

namespace Senna.Query

open Senna.Snip (SenEncoding)
open Senna.Index (senIsspace)

/-- `sen_str_charlen_nonnull(str, end, encoding)` on the bytes from `str` to `end`. -/
def senStrCharlenNonnull (encoding : SenEncoding) (p : List UInt8) : Nat :=
  match p with
  | [] => 0
  | b :: p =>
      match encoding with
      | .eucJp => if b &&& 0x80 ≠ 0 then if p = [] then 0 else 2 else 1
      | .utf8 => Str.senStrCharlenUtf8 (b :: p)
      | .sjis =>
          if b &&& 0x80 ≠ 0 then
            if 0xa0 ≤ b ∧ b ≤ 0xdf then 1 else if p = [] then 0 else 2
          else 1
      | _ => 1

theorem senStrCharlenNonnull_le (encoding : SenEncoding) (p : List UInt8) :
    senStrCharlenNonnull encoding p ≤ p.length := by
  cases p with
  | nil => exact le_refl 0
  | cons b p =>
      have hlen : p ≠ [] → 2 ≤ (b :: p).length := by
        intro hne
        have := List.length_pos_of_ne_nil hne
        rw [List.length_cons]
        omega
      have hone : 1 ≤ (b :: p).length := Nat.succ_pos _
      cases encoding with
      | utf8 => exact Str.senStrCharlenUtf8_le (b :: p)
      | eucJp =>
          simp only [senStrCharlenNonnull]
          split_ifs with h₁ h₂
          · exact Nat.zero_le _
          · exact hlen h₂
          · exact hone
      | sjis =>
          simp only [senStrCharlenNonnull]
          split_ifs with h₁ h₂ h₃
          · exact hone
          · exact Nat.zero_le _
          · exact hlen h₃
          · exact hone
      | none => exact hone
      | latin1 => exact hone
      | koi8r => exact hone

/-- `skip_space(q)`: the text at the new `cur`. -/
def skipSpace (encoding : SenEncoding) (p : List UInt8) : List UInt8 :=
  if p = [] ∨ senIsspace encoding p = 0 then p
  else
    let len := senStrCharlenNonnull encoding p
    if _h : len = 0 then [] else skipSpace encoding (p.drop len)
termination_by p.length
decreasing_by
  have := senStrCharlenNonnull_le encoding p
  rw [List.length_drop]
  omega

/-- The loop of `get_word` from `end` on: the bytes of the word and the text at the new
`cur`. -/
def wordScan (encoding : SenEncoding) (p : List UInt8) : List UInt8 × List UInt8 :=
  let len := senStrCharlenNonnull encoding p
  if _h : len = 0 then ([], [])
  else if senIsspace encoding p ≠ 0 ∨ p.headD 0 = 0x29 then ([], p)
  else if p.headD 0 = 0x2a then ([], p.tail)
  else
    let r := wordScan encoding (p.drop len)
    (p.take len ++ r.1, r.2)
termination_by p.length
decreasing_by
  have := senStrCharlenNonnull_le encoding p
  rw [List.length_drop]
  omega

/-- The mode and the option of `get_op`, with the text behind them. -/
def getOp (p : List UInt8) : Option (SelMode × Int × List UInt8) :=
  let option (mode : SelMode) (default : Int) : Option (SelMode × Int × List UInt8) :=
    let r := senAtoi p.tail
    some (mode, if r.2 = p.tail then default else r.1, r.2)
  match p.headD 0 with
  | 0x53 => option .similar 10
  | 0x4e => option .near 10
  | 0x6e => option .near2 10
  | 0x54 => option .termExtract 0
  | _ => none

/-- A cell of the pool. A pointer to a cell is its index, and `NIL` is `none`. -/
inductive PoolCell
  | list (car cdr : Option Nat)
  | bulk (value size : Nat)
  | op (o : Op)
  deriving DecidableEq, Repr

/-- The index of a cell that was written, and `cur` at that time. -/
structure CellWrite where
  index : Nat
  cur : Nat
  deriving DecidableEq, Repr

/-- The part of `sen_query` that the parser changes, with the text. -/
structure ParseState where
  text : List UInt8
  cur : Nat
  curCell : Nat
  curExpr : Nat
  pool : Nat → Option PoolCell
  writes : List CellWrite

/-- The part of `sen_query` that does not change. `image` is what a cell looks like in
memory. -/
structure Parser where
  encoding : SenEncoding
  defaultOp : SelOperator
  maxExprs : Nat
  image : PoolCell → List UInt8

namespace Parser

variable (A : Parser)

/-- `int max_cells = max_exprs * 4;` -/
def maxCells : Nat := A.maxExprs * 4

/-- The text after a cell was written over its beginning. -/
def overwrite (c : PoolCell) (text : List UInt8) : List UInt8 :=
  (A.image c ++ text.drop (A.image c).length).take text.length

/-- A cell is written at the index `i`. -/
def store (i : Nat) (c : PoolCell) (s : ParseState) : ParseState :=
  { s with
    pool := Function.update s.pool i (some c)
    text := if i < A.maxCells then s.text else A.overwrite c s.text
    writes := s.writes ++ [⟨i, s.cur⟩] }

/-- `cell_new(q)`, and the assignments to the new cell. -/
def cellNew (c : PoolCell) (s : ParseState) : Option Nat × ParseState :=
  if s.curCell ≤ A.maxCells then
    (some s.curCell, A.store s.curCell c { s with curCell := s.curCell + 1 })
  else (none, s)

/-- `cons(q, car, cdr)` -/
def cons (car cdr : Option Nat) (s : ParseState) : Option Nat × ParseState :=
  A.cellNew (.list car cdr) s

/-- `token_new(q, start, end)` -/
def tokenNew (start stop : Nat) (s : ParseState) : Option Nat × ParseState :=
  if stop ≤ start then (none, s)
  else
    match A.cellNew (.bulk start (stop - start)) s with
    | (some c, s) => (some c, { s with curExpr := s.curExpr + 1 })
    | (none, s) => (none, s)

/-- `op_new(q, op, weight, mode, option)` -/
def opNew (op : SelOperator) (weight : Int) (mode : Option SelMode) (option : Int)
    (s : ParseState) : Option Nat × ParseState :=
  A.cellNew (.op ⟨op, weight, mode, option⟩) s

/-- `c->u.l.cdr = c_;` for the cell `i`, which is a list. -/
def setCdr (i : Nat) (cdr : Option Nat) (s : ParseState) : ParseState :=
  match s.pool i with
  | some (.list car _) => A.store i (.list car cdr) s
  | _ => s

end Parser

namespace ParseState

variable (s : ParseState)

/-- The text from `q->cur` to `q->str_end`. -/
def rest : List UInt8 := s.text.drop s.cur

/-- `cur` at the text `p`, which is an end of the whole text. -/
def moveTo (p : List UInt8) : ParseState := { s with cur := s.text.length - p.length }

/-- `q->cur++;` -/
def next : ParseState := { s with cur := s.cur + 1 }

/-- `cell_del(q)` -/
def cellDel : ParseState := { s with curCell := s.curCell - 1 }

end ParseState

/-- `while (len--) { *d++ = *s++; }` -/
def copyBytes : Nat → List UInt8 → Nat → Nat → List UInt8
  | 0, text, _, _ => text
  | len + 1, text, s, d => copyBytes len (text.set d (text.getD s 0)) (s + 1) (d + 1)

namespace Parser

variable (A : Parser)

/-- The loop of `get_phrase`: the text, `q->cur` and `d` at its end. -/
def phraseLoop : Nat → List UInt8 → Nat → Nat → Option (List UInt8 × Nat × Nat)
  | 0, _, _, _ => none
  | k + 1, text, s, d =>
      if text.length ≤ s then some (text, s, d)
      else
        let len := senStrCharlenNonnull A.encoding (text.drop s)
        if len = 1 ∧ text.getD s 0 = 0x22 then some (text, s + 1, d)
        else if len = 1 ∧ text.getD s 0 = 0x5c ∧ s + 1 < text.length then
          let len := senStrCharlenNonnull A.encoding (text.drop (s + 1))
          phraseLoop k (copyBytes len text (s + 1) d) (s + 1 + len) (d + len)
        else phraseLoop k (copyBytes len text s d) (s + len) (d + len)

/-- `get_phrase(q)` -/
def getPhrase (k : Nat) (s : ParseState) : Option (Option Nat × ParseState) :=
  (A.phraseLoop k s.text s.cur s.cur).map fun (text, cur, d) =>
    A.tokenNew s.cur d { s with text := text, cur := cur }

/-- `get_word(q, &prefixp)`. Nothing looks at `prefixp`. -/
def getWord (s : ParseState) : Option Nat × ParseState :=
  let r := wordScan A.encoding s.rest
  A.tokenNew s.cur (s.cur + r.1.length) (s.moveTo r.2)

/-- The `default` case of `get_token`: a word, or the operator `OR`. -/
def getDefault (s : ParseState) : Option Nat × ParseState :=
  match A.getWord s with
  | (none, s) => (none, s)
  | (some c, s) =>
      match s.pool c with
      | some (.bulk value size) =>
          if s.text.getD value 0 = 0x4f ∧ s.text.getD (value + 1) 0 = 0x52 ∧ size = 2 then
            A.opNew .or 5 none 0 { s.cellDel with curExpr := s.curExpr - 1 }
          else (some c, s)
      | _ => (some c, s)

/-- The case `SEN_QUERY_PREFIX` of `get_token`, behind the `*`. -/
def getStar (s : ParseState) : Option Nat × ParseState :=
  match getOp s.rest with
  | none => (none, s)
  | some (mode, option, p) => A.opNew A.defaultOp 5 (some mode) option (s.moveTo p)

/-- The token at `cur` when it is neither a phrase nor in parentheses. -/
def simpleToken (b : UInt8) (s : ParseState) : Option Nat × ParseState :=
  if b = 0x2a then A.getStar s.next
  else if b = 0x2b then A.opNew .and 5 none 0 s.next
  else if b = 0x2d then A.opNew .but 5 none 0 s.next
  else if b = 0x3e then A.opNew .adjust 6 none 0 s.next
  else if b = 0x3c then A.opNew .adjust 4 none 0 s.next
  else if b = 0x7e then A.opNew .adjust (-1) none 0 s.next
  else A.getDefault s

mutual

/-- `get_token(q)` -/
def getToken : Nat → ParseState → Option (Option Nat × ParseState)
  | 0, _ => none
  | k + 1, s =>
      let s := s.moveTo (skipSpace A.encoding s.rest)
      if A.maxExprs ≤ s.curExpr ∨ A.maxCells ≤ s.curCell ∨ s.text.length ≤ s.cur then
        some (none, s)
      else
        let b := s.text.getD s.cur 0
        if b = 0 then some (none, s)
        else if b = 0x29 then some (none, s.next)
        else if b = 0x22 then
          (A.getPhrase k s.next).map fun (token, s) => A.cons token none s
        else if b = 0x28 then
          (getExpr k s.next).map fun (token, s) => A.cons token none s
        else
          let (token, s) := A.simpleToken b s
          some (A.cons token none s)

/-- `get_expr(q)` -/
def getExpr : Nat → ParseState → Option (Option Nat × ParseState)
  | 0, _ => none
  | k + 1, s => (getToken k s).bind fun (r, s) => (exprLoop k r s).map fun s => (r, s)

/-- The loop of `get_expr` with `c`. -/
def exprLoop : Nat → Option Nat → ParseState → Option ParseState
  | 0, _, _ => none
  | _ + 1, none, s => some s
  | k + 1, some c, s => (getToken k s).bind fun (c', s) => exprLoop k c' (A.setCdr c c' s)

end

/-- The state before `get_expr`. -/
def start (text : List UInt8) (cur : List UInt8) : ParseState :=
  { text := text
    cur := text.length - cur.length
    curCell := 0
    curExpr := 0
    pool := fun _ => none
    writes := [] }

end Parser

/-- The parser of `sen_query_open(str, str_len, default_op, max_exprs, encoding)` after
`get_pragma`. -/
def openParser (encoding : SenEncoding) (str : List UInt8) (defaultOp : SelOperator)
    (maxExprs : Nat) (image : PoolCell → List UInt8) : Parser where
  encoding := encoding
  defaultOp := (openPragmas encoding str defaultOp).defaultOp
  maxExprs := maxExprs
  image := image

/-- `q->expr` and the state at the end of `sen_query_open`. -/
def senQueryOpen (encoding : SenEncoding) (str : List UInt8) (defaultOp : SelOperator)
    (maxExprs : Nat) (image : PoolCell → List UInt8) (k : Nat) :
    Option (Option Nat × ParseState) :=
  (openParser encoding str defaultOp maxExprs image).getExpr k
    (Parser.start str (openPragmas encoding str defaultOp).cur)

end Senna.Query
