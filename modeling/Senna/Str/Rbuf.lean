/-
# Growing buffers

A `sen_rbuf` is a block of memory with three pointers into it: the text begins at `head`, ends at
`curr`, and there is room up to `tail`, the end of the block. `sen_rbuf_margin_size` bytes in front
of `head` belong to the block too. Each function that appends asks for the room that it needs
and then stores; a formatting helper decides for itself how much.

Pointers are addresses, `NULL` is 0. Where the allocator puts a block, or whether it fails, is
a parameter. A store outside of the room between `head` and `tail` is an overrun, and ends the run.
-/

import Senna.Lib.Memory
import Senna.Query.Parser
import Senna.Str.Number

namespace Senna.Str

open Senna.Lib (Memory)
open Senna.Query (senStrCharlenNonnull)

/-- `UNIT_SIZE` -/
def rbufUnit : Nat := 0x1000

/-- `sen_rbuf`, the memory it points into, and the number of allocations so far. -/
structure SenRbuf where
  mem : Memory UInt8
  allocs : Nat
  head : Nat
  curr : Nat
  tail : Nat

/-- The difference of two pointers as a `size_t`. -/
def ptrDiff (p q : Nat) : Nat := (((p : Int) - q) % 2 ^ 64).toNat

namespace SenRbuf

variable (buf : SenRbuf)

/-- `SEN_RBUF_WSIZE` -/
def wsize : Nat := ptrDiff buf.tail buf.head

/-- `SEN_RBUF_REST` -/
def rest : Nat := ptrDiff buf.tail buf.curr

/-- `SEN_RBUF_VSIZE` -/
def vsize : Nat := ptrDiff buf.curr buf.head

/-- `SEN_RBUF_REWIND` -/
def rewind : SenRbuf := { buf with curr := buf.head }

/-- The bytes `bs` stored at `p`, or an overrun. -/
def store (p : Nat) (bs : List UInt8) : Option SenRbuf :=
  if buf.head ≤ p ∧ p + bs.length ≤ buf.tail then some { buf with mem := buf.mem.write p bs }
  else none

/-- `buf->curr += len` -/
def advance (len : Nat) : SenRbuf := { buf with curr := buf.curr + len }

end SenRbuf

section Calls

variable (place : Nat → Nat → Option Nat) (margin : Nat)

/-- The size that `sen_rbuf_resize` allocates for `newsize`. -/
def rbufBlockSize (newsize : Nat) : Nat :=
  (newsize + margin + 1 + (rbufUnit - 1)) % 2 ^ 64 / rbufUnit * rbufUnit

/-- `sen_rbuf_resize`. The block ends at `tail`, and `SEN_REALLOC` takes along what fits. -/
def senRbufResize (buf : SenRbuf) (newsize : Nat) : SenRc × SenRbuf :=
  let size := rbufBlockSize margin newsize
  let old := buf.head - if buf.head ≠ 0 then margin else 0
  match place buf.allocs size with
  | none => (.memoryExhausted, { buf with allocs := buf.allocs + 1 })
  | some head =>
      (.success,
        { mem := buf.mem.write head (buf.mem.read old (min (buf.tail - old) size))
          allocs := buf.allocs + 1
          head := head + margin
          curr := head + margin + buf.vsize
          tail := head + size })

/-- `sen_rbuf_init` -/
def senRbufInit (buf : SenRbuf) (size : Nat) : SenRc × SenRbuf :=
  let buf := { buf with head := 0, curr := 0, tail := 0 }
  if size ≠ 0 then senRbufResize place margin buf size else (.success, buf)

/-- `sen_rbuf_reinit` -/
def senRbufReinit (buf : SenRbuf) (size : Nat) : SenRc × SenRbuf :=
  senRbufResize place margin buf.rewind size

/-- `sen_rbuf_reserve`, which is how every function below begins. -/
def senRbufReserve (buf : SenRbuf) (len : Nat) : SenRc × SenRbuf :=
  if buf.rest < len then senRbufResize place margin buf ((buf.vsize + len) % 2 ^ 64)
  else (.success, buf)

/-- `sen_rbuf_space` -/
def senRbufSpace (buf : SenRbuf) (len : Nat) : SenRc × SenRbuf :=
  match senRbufReserve place margin buf len with
  | (.success, buf) => (.success, buf.advance len)
  | failed => failed

/-- Room for `len` bytes, the bytes `bs` stored there, and `curr` moved by `len`. -/
def rbufPut (buf : SenRbuf) (len : Nat) (bs : List UInt8) : Option (SenRc × SenRbuf) :=
  match senRbufReserve place margin buf len with
  | (.success, buf) => (buf.store buf.curr bs).map fun buf => (.success, buf.advance len)
  | failed => some failed

/-- `sen_rbuf_write` -/
def senRbufWrite (buf : SenRbuf) (str : List UInt8) : Option (SenRc × SenRbuf) :=
  rbufPut place margin buf str.length str

/-- `sen_str_itoh(i, p, len)`: what is stored at `p`, the terminator behind the digits. -/
def senStrItoh (i len : Nat) : List UInt8 :=
  ((List.range len).map fun k =>
    "0123456789ABCDEF".toUTF8.toList.getD (i >>> (4 * k) &&& 0xf) 0).reverse ++ [0]

/-- `sen_rbuf_itoh`. It asks for room without the terminator. -/
def senRbufItoh (buf : SenRbuf) (i : Int) : Option (SenRc × SenRbuf) :=
  rbufPut place margin buf 8 (senStrItoh (i % 2 ^ 32).toNat 8)

/-- `sen_str_itob(id, p)`: what is stored at `p`. -/
def senStrItob (id : Nat) : List UInt8 :=
  let id := id ^^^ 0x34d34d34
  [24, 18, 12, 6, 0].map fun k =>
    "ABCDEFGHIJKLMNOPQRSTUVWXYZabcdefghijklmnopqrstuvwxyz0123456789+/".toUTF8.toList.getD
      (id >>> k &&& 0x3f) 0

/-- `sen_rbuf_itob` -/
def senRbufItob (buf : SenRbuf) (id : Nat) : Option (SenRc × SenRbuf) :=
  rbufPut place margin buf 5 (senStrItob id)

/-- The digits that the loop of `sen_str_itoa` and `sen_str_lltoa` stores before it runs into
`end`. -/
def itonStored : Nat → Int → List UInt8
  | 0, _ => []
  | room + 1, i =>
      itonDigit i :: if i.tdiv 10 > 0 then itonStored room (i.tdiv 10) else []

/-- What `sen_str_itoa` and `sen_str_lltoa` have stored when they fail. -/
def itonFailed (w : Nat) (i : Int) (room : Nat) : List UInt8 :=
  if room = 0 then []
  else if i < 0 then 0x2d :: itonStored (room - 1) ((-i).bmod (2 ^ w))
  else itonStored room i

/-- `sen_rbuf_itoa` and `sen_rbuf_lltoa` with words of `w` bits and so many attempts left. -/
def rbufIton (w : Nat) (i : Int) : Nat → SenRbuf → Option (SenRc × SenRbuf)
  | 0, _ => none
  | attempts + 1, buf =>
      match iton w i (buf.tail - buf.curr) with
      | some text => (buf.store buf.curr text).map fun buf => (.success, buf.advance text.length)
      | none => do
          let buf ← buf.store buf.curr (itonFailed w i (buf.tail - buf.curr))
          match senRbufResize place margin buf ((buf.wsize + rbufUnit) % 2 ^ 64) with
          | (.success, buf) => rbufIton w i attempts buf
          | failed => some failed

/-- `sen_rbuf_itoa`. The text fits into a unit, so a second attempt does not fail. -/
def senRbufItoa (buf : SenRbuf) (i : Int) : Option (SenRc × SenRbuf) :=
  rbufIton place margin 32 i 2 buf

/-- `sen_rbuf_lltoa` -/
def senRbufLltoa (buf : SenRbuf) (i : Int) : Option (SenRc × SenRbuf) :=
  rbufIton place margin 64 i 2 buf

/-- The characters that `sen_rbuf_str_esc` steps over, up to the first broken one. -/
def strEscChars (encoding : Snip.SenEncoding) : Nat → List UInt8 → List (List UInt8)
  | 0, _ => []
  | fuel + 1, s =>
      let l := senStrCharlenNonnull encoding s
      if l = 0 then [] else s.take l :: strEscChars encoding fuel (s.drop l)

/-- What `sen_rbuf_str_esc` writes for a character. -/
def strEscChar : List UInt8 → List UInt8
  | [0x0a] => [0x5c, 0x6e]
  | [0x22] => [0x5c, 0x22]
  | [0x5c] => [0x5c, 0x5c]
  | c => c

/-- The bytes of `s` that `sen_rbuf_str_esc` reads. -/
def strEscSource (s : List UInt8) (len : Int) : List UInt8 :=
  if len < 0 then s.takeWhile (· ≠ 0) else s.take len.toNat

/-- `sen_rbuf_str_esc` is a sequence of writes whose return codes are not looked at. -/
def senRbufStrEsc (buf : SenRbuf) (s : List UInt8) (len : Int) (encoding : Snip.SenEncoding) :
    Option SenRbuf := do
  let source := strEscSource s len
  let pieces := (strEscChars encoding source.length source).map strEscChar
  ([0x22] :: pieces ++ [[0x22]]).foldlM
    (fun buf piece => (senRbufWrite place margin buf piece).map Prod.snd) buf

end Calls

/-- The bytes `bs` are those asked for; nothing is said of a byte that was only given room. -/
def Covers (asked : List (Option UInt8)) (bs : List UInt8) : Prop :=
  List.Forall₂ (fun a b => ∀ c ∈ a, c = b) asked bs

theorem covers_some (bs : List UInt8) : Covers (bs.map some) bs := by
  induction bs with
  | nil => exact .nil
  | cons b bs ih => exact .cons (fun c hc => (Option.some.inj hc).symm) ih

theorem covers_none (bs : List UInt8) : Covers (List.replicate bs.length none) bs := by
  induction bs with
  | nil => exact .nil
  | cons b bs ih => exact .cons (fun c hc => absurd hc (by simp)) ih

/-- The pointers of a buffer are in order, and its text is what was asked for. -/
structure SenRbuf.Holds (margin : Nat) (buf : SenRbuf) (asked : List (Option UInt8)) : Prop where
  head_le : buf.head ≤ buf.curr
  curr_le : buf.curr ≤ buf.tail
  tail_lt : buf.tail < 2 ^ 64
  null : buf.head = 0 → buf.tail = 0
  margin_le : buf.head ≠ 0 → margin ≤ buf.head
  text : Covers asked (buf.mem.read buf.head (buf.curr - buf.head))

/-- The allocator does not fail, and its blocks lie in the address space. -/
def Allocates (place : Nat → Nat → Option Nat) : Prop :=
  ∀ k size, size ≤ 2 ^ 64 - rbufUnit →
    ∃ p, place k size = some p ∧ 0 < p ∧ p + size < 2 ^ 64

/-- What `sen_rbuf_resize` adds to `newsize` stays within a `size_t`. -/
def NoWrap (margin newsize : Nat) : Prop := newsize + margin + rbufUnit < 2 ^ 64

theorem ptrDiff_of_le {p q : Nat} (h : q ≤ p) (hp : p < 2 ^ 64) : ptrDiff p q = p - q := by
  unfold ptrDiff
  omega

namespace SenRbuf.Holds

variable {place : Nat → Nat → Option Nat} {margin : Nat} {buf : SenRbuf}
variable {asked more : List (Option UInt8)}

theorem rest_eq (h : buf.Holds margin asked) : buf.rest = buf.tail - buf.curr :=
  ptrDiff_of_le h.curr_le h.tail_lt

theorem vsize_eq (h : buf.Holds margin asked) : buf.vsize = buf.curr - buf.head :=
  ptrDiff_of_le h.head_le (h.curr_le.trans_lt h.tail_lt)

theorem wsize_eq (h : buf.Holds margin asked) : buf.wsize = buf.tail - buf.head :=
  ptrDiff_of_le (h.head_le.trans h.curr_le) h.tail_lt

/-- What is stored behind the text leaves it alone. -/
theorem store (h : buf.Holds margin asked) (bs : List UInt8)
    (hroom : buf.curr + bs.length ≤ buf.tail) :
    ∃ buf' : SenRbuf, buf.store buf.curr bs = some buf' ∧ buf'.Holds margin asked ∧
      buf'.head = buf.head ∧ buf'.curr = buf.curr ∧ buf'.tail = buf.tail ∧
      buf'.mem.read buf.curr bs.length = bs := by
  refine ⟨_, if_pos ⟨h.head_le, hroom⟩, ⟨h.head_le, h.curr_le, h.tail_lt, h.null, h.margin_le, ?_⟩,
    rfl, rfl, rfl, Memory.read_write _ _ _⟩
  have hsame : (buf.mem.write buf.curr bs).read buf.head (buf.curr - buf.head) =
      buf.mem.read buf.head (buf.curr - buf.head) :=
    Memory.read_write_of_disjoint (.inl (by have := h.head_le; omega))
  exact hsame ▸ h.text

/-- The bytes behind `curr` become text. -/
theorem advance (h : buf.Holds margin asked) {len : Nat} (hroom : buf.curr + len ≤ buf.tail)
    (hmore : Covers more (buf.mem.read buf.curr len)) :
    (buf.advance len).Holds margin (asked ++ more) where
  head_le := h.head_le.trans (Nat.le_add_right _ _)
  curr_le := hroom
  tail_lt := h.tail_lt
  null := h.null
  margin_le := h.margin_le
  text := by
    have hle := h.head_le
    have hlen : (buf.advance len).curr - buf.head = (buf.curr - buf.head) + len := by
      change buf.curr + len - buf.head = _
      omega
    change Covers _ (buf.mem.read buf.head ((buf.advance len).curr - buf.head))
    rw [hlen, Memory.read_add, show buf.head + (buf.curr - buf.head) = buf.curr by omega]
    exact List.rel_append h.text hmore

end SenRbuf.Holds

section Growing

variable {place : Nat → Nat → Option Nat} {margin : Nat} {buf : SenRbuf}
variable {asked : List (Option UInt8)}

theorem le_rbufBlockSize {newsize : Nat} (h : NoWrap margin newsize) :
    newsize + margin + 1 ≤ rbufBlockSize margin newsize ∧
      rbufBlockSize margin newsize ≤ 2 ^ 64 - rbufUnit := by
  unfold NoWrap at h
  unfold rbufBlockSize
  unfold rbufUnit at h ⊢
  omega

/-- What was copied is read at its new place. -/
theorem read_write_read (m : Memory UInt8) {a b i n k : Nat} (h : i + n ≤ k) :
    (m.write a (m.read b k)).read (a + i) n = m.read (b + i) n := by
  have hsplit : m.read b k =
      m.read b i ++ m.read (b + i) n ++ m.read (b + (i + n)) (k - (i + n)) := by
    rw [← Memory.read_add, ← Memory.read_add, Nat.add_sub_of_le h]
  have hback := Memory.read_write_append m a (m.read b i) (m.read (b + i) n)
    (m.read (b + (i + n)) (k - (i + n)))
  rw [← hsplit] at hback
  simpa using hback

/-- **`sen_rbuf_resize` moves the text along**, and leaves more room than was asked for. -/
theorem SenRbuf.Holds.resize (h : buf.Holds margin asked) (hplace : Allocates place)
    (newsize : Nat) (hused : buf.curr - buf.head ≤ newsize) (hcount : NoWrap margin newsize) :
    ∃ buf' : SenRbuf, senRbufResize place margin buf newsize = (.success, buf') ∧
      buf'.Holds margin asked ∧ buf'.curr - buf'.head = buf.curr - buf.head ∧
      buf'.tail - buf'.head = rbufBlockSize margin newsize - margin ∧
      newsize < buf'.tail - buf'.head := by
  obtain ⟨hlow, hhigh⟩ := le_rbufBlockSize hcount
  obtain ⟨p, hp, hpos, hfit⟩ := hplace buf.allocs _ hhigh
  have hhead := h.head_le
  have hcurr := h.curr_le
  have hvsize := h.vsize_eq
  refine ⟨_, by rw [senRbufResize, hp], ?_, ?_, ?_, ?_⟩
  · refine ⟨by simp, ?_, hfit, ?_, by simp, ?_⟩
    · dsimp only
      omega
    · dsimp only
      omega
    · dsimp only
      rw [hvsize, Nat.add_sub_cancel_left]
      -- A buffer without a block has no text; any other block is copied from its margin on.
      by_cases hnull : buf.head = 0
      · have := h.null hnull
        have hempty : buf.curr - buf.head = 0 := by omega
        have htext := h.text
        rw [hempty] at htext ⊢
        exact htext
      · have hmargin := h.margin_le hnull
        rw [if_pos hnull, read_write_read _ (by omega), Nat.sub_add_cancel hmargin]
        exact h.text
  · dsimp only
    rw [hvsize, Nat.add_sub_cancel_left]
  · dsimp only
    omega
  · dsimp only
    omega

/-- Room for `len` bytes, and for one more unless there were just `len` left. -/
theorem SenRbuf.Holds.reserve (h : buf.Holds margin asked) (hplace : Allocates place)
    {len : Nat} (hcount : NoWrap margin (buf.curr - buf.head + len)) :
    ∃ buf' : SenRbuf, senRbufReserve place margin buf len = (.success, buf') ∧
      buf'.Holds margin asked ∧ buf'.curr - buf'.head = buf.curr - buf.head ∧
      buf'.curr + len ≤ buf'.tail ∧ (buf.rest ≠ len → buf'.curr + len < buf'.tail) := by
  have hlt : buf.curr - buf.head + len < 2 ^ 64 := by
    unfold NoWrap at hcount
    omega
  have hrest := h.rest_eq
  have hcurr := h.curr_le
  unfold senRbufReserve
  rw [h.vsize_eq, Nat.mod_eq_of_lt hlt]
  split_ifs with hsmall
  · obtain ⟨buf', heq, hholds, hsame, -, hroom⟩ := h.resize hplace _ (Nat.le_add_right _ len) hcount
    have := hholds.head_le
    have := hholds.curr_le
    exact ⟨buf', heq, hholds, hsame, by omega, fun _ => by omega⟩
  · exact ⟨buf, rfl, h, rfl, by omega, fun hne => by omega⟩

theorem SenRbuf.Holds.space (h : buf.Holds margin asked) (hplace : Allocates place)
    {len : Nat} (hcount : NoWrap margin (buf.curr - buf.head + len)) :
    ∃ buf' : SenRbuf, senRbufSpace place margin buf len = (.success, buf') ∧
      buf'.Holds margin (asked ++ List.replicate len none) := by
  obtain ⟨buf', heq, hholds, -, hroom, -⟩ := h.reserve hplace hcount
  refine ⟨_, by rw [senRbufSpace, heq], hholds.advance hroom ?_⟩
  have hnone := covers_none (buf'.mem.read buf'.curr len)
  rwa [Memory.length_read] at hnone

/-- What is put behind the text: the bytes asked for, and perhaps a terminator, for which there
must not be just the room asked for. -/
theorem SenRbuf.Holds.put (h : buf.Holds margin asked) (hplace : Allocates place)
    (text terminator : List UInt8) (hone : terminator.length ≤ 1)
    (hroom : terminator ≠ [] → buf.rest ≠ text.length)
    (hcount : NoWrap margin (buf.curr - buf.head + text.length)) :
    ∃ buf' : SenRbuf,
      rbufPut place margin buf text.length (text ++ terminator) = some (.success, buf') ∧
        buf'.Holds margin (asked ++ text.map some) := by
  obtain ⟨grown, hgrown, hholds, -, hle, hlt⟩ := h.reserve hplace hcount
  have hfits : grown.curr + (text ++ terminator).length ≤ grown.tail := by
    rw [List.length_append]
    by_cases hnil : terminator = []
    · rw [hnil, List.length_nil]
      omega
    · have := hlt (hroom hnil)
      omega
  obtain ⟨buf', hstore, hheld, -, hcurr, htail, hread⟩ := hholds.store _ hfits
  refine ⟨buf'.advance text.length, by rw [rbufPut, hgrown]; simp [hstore], ?_⟩
  refine hheld.advance (by omega) ?_
  rw [List.length_append, Memory.read_add] at hread
  rw [hcurr, (List.append_inj hread (by simp)).1]
  exact covers_some text

theorem length_itonStored (room : Nat) (i : Int) : (itonStored room i).length ≤ room := by
  induction room generalizing i with
  | zero => exact le_rfl
  | succ room ih =>
      have := ih (i.tdiv 10)
      rw [itonStored, List.length_cons]
      split_ifs
      · omega
      · rw [List.length_nil]
        omega

theorem length_itonFailed (w : Nat) (i : Int) (room : Nat) :
    (itonFailed w i room).length ≤ room := by
  unfold itonFailed
  split_ifs with hroom hneg
  · exact Nat.zero_le _
  · have := length_itonStored (room - 1) ((-i).bmod (2 ^ w))
    rw [List.length_cons]
    omega
  · exact length_itonStored room i

theorem length_decimalText {i : Int} {k : Nat} (hk : 0 < k) (hi : i.natAbs < 10 ^ k) :
    (decimalText i).length ≤ k + 1 := by
  have hdigits : (digitsOf i.natAbs).length ≤ k := by
    unfold digitsOf
    split_ifs
    · exact hk
    · exact (Nat.digits_length_le_iff (by decide) _).mpr hi
  unfold decimalText
  rw [List.length_append, List.length_reverse, List.length_map]
  split_ifs <;> simp <;> omega

variable {w : Nat} {i : Int}

variable (place) in
/-- An attempt that finds room for the text. -/
theorem SenRbuf.Holds.iton_fits (h : buf.Holds margin asked) (hi : -2 ^ w < i ∧ i < 2 ^ w)
    (hroom : (decimalText i).length ≤ buf.tail - buf.curr) (attempts : Nat) :
    ∃ buf' : SenRbuf, rbufIton place margin (w + 1) i (attempts + 1) buf = some (.success, buf') ∧
      buf'.Holds margin (asked ++ (decimalText i).map some) := by
  have hcurr := h.curr_le
  obtain ⟨stored, hstore, hheld, -, hsame, htail, hread⟩ :=
    h.store (decimalText i) (by omega)
  refine ⟨stored.advance (decimalText i).length, ?_, hheld.advance (by omega) ?_⟩
  · rw [rbufIton, iton_eq hi, if_pos hroom]
    simp [hstore]
  · rw [hsame, hread]
    exact covers_some _

/-- **An integer is written at the second attempt** at the latest: a unit more is room enough. -/
theorem SenRbuf.Holds.iton (h : buf.Holds margin asked) (hplace : Allocates place)
    (hi : -2 ^ w < i ∧ i < 2 ^ w) (hlen : (decimalText i).length ≤ rbufUnit)
    (hcount : NoWrap margin (buf.tail - buf.head + rbufUnit)) :
    ∃ buf' : SenRbuf, rbufIton place margin (w + 1) i 2 buf = some (.success, buf') ∧
      buf'.Holds margin (asked ++ (decimalText i).map some) := by
  by_cases hroom : (decimalText i).length ≤ buf.tail - buf.curr
  · exact h.iton_fits place hi hroom 1
  have hhead := h.head_le
  have hcurr := h.curr_le
  obtain ⟨stored, hstore, hheld, hsamehead, hsamecurr, hsametail, -⟩ :=
    h.store (itonFailed (w + 1) i (buf.tail - buf.curr))
      (by have := length_itonFailed (w + 1) i (buf.tail - buf.curr); omega)
  rw [← hsamehead, ← hsametail] at hcount
  have hlt : stored.tail - stored.head + rbufUnit < 2 ^ 64 := by
    unfold NoWrap at hcount
    omega
  obtain ⟨grown, hresize, hholds, hused, -, hmore⟩ := hheld.resize hplace
    (stored.tail - stored.head + rbufUnit) (by omega) hcount
  obtain ⟨buf', hput, hdone⟩ := hholds.iton_fits place hi (by omega) 0
  refine ⟨buf', ?_, hdone⟩
  rw [rbufIton, iton_eq hi, if_neg hroom]
  simp only [hstore, Option.bind_eq_bind, Option.bind_some, hheld.wsize_eq,
    Nat.mod_eq_of_lt hlt, hresize]
  exact hput

/-- A sequence of writes. -/
theorem SenRbuf.Holds.writes (h : buf.Holds margin asked) (hplace : Allocates place)
    (pieces : List (List UInt8))
    (hcount : NoWrap margin (buf.curr - buf.head + pieces.flatten.length)) :
    ∃ buf' : SenRbuf,
      pieces.foldlM (fun buf piece => (senRbufWrite place margin buf piece).map Prod.snd) buf =
        some buf' ∧ buf'.Holds margin (asked ++ pieces.flatten.map some) := by
  induction pieces generalizing buf asked with
  | nil => exact ⟨buf, rfl, by simpa using h⟩
  | cons piece pieces ih =>
      have hlen : (buf.curr - buf.head) = asked.length := by
        have := h.text.length_eq
        rw [Memory.length_read] at this
        exact this.symm
      rw [List.flatten_cons, List.length_append] at hcount
      obtain ⟨buf₁, hput, hheld⟩ := h.put hplace piece [] (by simp) (by simp)
        (by unfold NoWrap at hcount ⊢; omega)
      rw [List.append_nil] at hput
      have hlen₁ : (buf₁.curr - buf₁.head) = asked.length + piece.length := by
        have := hheld.text.length_eq
        rw [Memory.length_read, List.length_append, List.length_map] at this
        exact this.symm
      obtain ⟨buf', hrest, hdone⟩ := ih hheld (by rw [hlen₁, ← hlen]; rwa [Nat.add_assoc])
      refine ⟨buf', ?_, by simpa using hdone⟩
      rw [List.foldlM_cons, senRbufWrite, hput]
      exact hrest

end Growing

/-- A call on a buffer. -/
inductive RbufCall
  | init (size : Nat)
  | resize (newsize : Nat)
  | write (str : List UInt8)
  | space (len : Nat)
  | itoa (i : Int)
  | lltoa (i : Int)
  | itoh (i : Int)
  | itob (id : Nat)
  | strEsc (s : List UInt8) (len : Int) (encoding : Snip.SenEncoding)

/-- What `sen_rbuf_str_esc` writes, one piece after the other. -/
def strEscPieces (s : List UInt8) (len : Int) (encoding : Snip.SenEncoding) : List (List UInt8) :=
  let source := strEscSource s len
  [0x22] :: (strEscChars encoding source.length source).map strEscChar ++ [[0x22]]

/-- The hexadecimal digits of an `int`. -/
def hexText (i : Int) : List UInt8 := (senStrItoh (i % 2 ^ 32).toNat 8).dropLast

namespace RbufCall

/-- The buffer after a call, or an overrun. -/
def run (place : Nat → Nat → Option Nat) (margin : Nat) (buf : SenRbuf) :
    RbufCall → Option SenRbuf
  | init size => some (senRbufInit place margin buf size).2
  | resize newsize => some (senRbufResize place margin buf newsize).2
  | write str => (senRbufWrite place margin buf str).map Prod.snd
  | space len => some (senRbufSpace place margin buf len).2
  | itoa i => (senRbufItoa place margin buf i).map Prod.snd
  | lltoa i => (senRbufLltoa place margin buf i).map Prod.snd
  | itoh i => (senRbufItoh place margin buf i).map Prod.snd
  | itob id => (senRbufItob place margin buf id).map Prod.snd
  | strEsc s len encoding => senRbufStrEsc place margin buf s len encoding

/-- What a call asks to be in the buffer when `asked` was asked for before. -/
def asks (asked : List (Option UInt8)) : RbufCall → List (Option UInt8)
  | init _ => []
  | resize _ => asked
  | write str => asked ++ str.map some
  | space len => asked ++ List.replicate len none
  | itoa i | lltoa i => asked ++ (decimalText i).map some
  | itoh i => asked ++ (hexText i).map some
  | itob id => asked ++ (senStrItob id).map some
  | strEsc s len encoding => asked ++ (strEscPieces s len encoding).flatten.map some

/-- The arguments are of their types, and a buffer is not made smaller than its text. -/
def Ok (buf : SenRbuf) : RbufCall → Prop
  | resize newsize => buf.curr - buf.head ≤ newsize
  | itoa i => -2 ^ 31 ≤ i ∧ i < 2 ^ 31
  | lltoa i => -2 ^ 63 ≤ i ∧ i < 2 ^ 63
  | _ => True

/-- A call that the code gets right: the sizes do not wrap around, the number is not the least
one, and `sen_rbuf_itoh` does not find exactly its eight bytes left. -/
def Meets (margin : Nat) (buf : SenRbuf) : RbufCall → Prop
  | init size => size ≠ 0 → NoWrap margin size
  | resize newsize => NoWrap margin newsize
  | write str => NoWrap margin (buf.curr - buf.head + str.length)
  | space len => NoWrap margin (buf.curr - buf.head + len)
  | itoa i => i ≠ -2 ^ 31 ∧ NoWrap margin (buf.tail - buf.head + rbufUnit)
  | lltoa i => i ≠ -2 ^ 63 ∧ NoWrap margin (buf.tail - buf.head + rbufUnit)
  | itoh _ => buf.tail - buf.curr ≠ 8 ∧ NoWrap margin (buf.curr - buf.head + 8)
  | itob _ => NoWrap margin (buf.curr - buf.head + 5)
  | strEsc s len encoding =>
      NoWrap margin (buf.curr - buf.head + (strEscPieces s len encoding).flatten.length)

section Step

variable {place : Nat → Nat → Option Nat} {margin : Nat} {buf : SenRbuf}
variable {asked : List (Option UInt8)}

/-- `sen_rbuf_init` sets the buffer up, whatever was in it. -/
theorem holds_init (hplace : Allocates place) {size : Nat}
    (hmeets : size ≠ 0 → NoWrap margin size) :
    (senRbufInit place margin buf size).2.Holds margin [] := by
  have hnull : SenRbuf.Holds margin { buf with head := 0, curr := 0, tail := 0 } [] :=
    ⟨le_rfl, le_rfl, Nat.two_pow_pos 64, fun _ => rfl, fun h => absurd rfl h, .nil⟩
  unfold senRbufInit
  by_cases hsize : size = 0
  · rw [if_neg (by simpa using hsize)]
    exact hnull
  · rw [if_pos hsize]
    obtain ⟨buf', heq, hholds, -⟩ := hnull.resize hplace size (Nat.zero_le _)
      (hmeets hsize)
    rw [heq]
    exact hholds

/-- **A call keeps the buffer in order** and appends what it was asked to. -/
theorem holds_run (hplace : Allocates place) (h : buf.Holds margin asked) (call : RbufCall)
    (hok : call.Ok buf) (hmeets : call.Meets margin buf) :
    ∃ buf', call.run place margin buf = some buf' ∧ buf'.Holds margin (call.asks asked) := by
  cases call with
  | init size => exact ⟨_, rfl, holds_init hplace hmeets⟩
  | resize newsize =>
      obtain ⟨buf', heq, hholds, -⟩ := h.resize hplace newsize hok hmeets
      exact ⟨buf', by rw [run, heq], hholds⟩
  | write str =>
      obtain ⟨buf', heq, hholds⟩ := h.put hplace str [] (by simp) (by simp) hmeets
      rw [List.append_nil] at heq
      exact ⟨buf', by rw [run, senRbufWrite, heq]; rfl, hholds⟩
  | space len =>
      obtain ⟨buf', heq, hholds⟩ := h.space hplace hmeets
      exact ⟨buf', by rw [run, heq], hholds⟩
  | itoa i =>
      have hlow : -2 ^ 31 < i := lt_of_le_of_ne hok.1 (Ne.symm hmeets.1)
      have hlen := length_decimalText (i := i) (k := 20) (by decide) (by have := hok.2; omega)
      obtain ⟨buf', heq, hholds⟩ := h.iton hplace (w := 31) ⟨hlow, hok.2⟩
        (hlen.trans (by decide)) hmeets.2
      exact ⟨buf', by rw [run, senRbufItoa, heq]; rfl, hholds⟩
  | lltoa i =>
      have hlow : -2 ^ 63 < i := lt_of_le_of_ne hok.1 (Ne.symm hmeets.1)
      have hlen := length_decimalText (i := i) (k := 20) (by decide) (by have := hok.2; omega)
      obtain ⟨buf', heq, hholds⟩ := h.iton hplace (w := 63) ⟨hlow, hok.2⟩
        (hlen.trans (by decide)) hmeets.2
      exact ⟨buf', by rw [run, senRbufLltoa, heq]; rfl, hholds⟩
  | itoh i =>
      have hsplit : senStrItoh (i % 2 ^ 32).toNat 8 = hexText i ++ [0] := by
        simp [hexText, senStrItoh]
      have hlen : (hexText i).length = 8 := by simp [hexText, senStrItoh]
      obtain ⟨buf', heq, hholds⟩ := h.put hplace (hexText i) [0] (by simp)
        (fun _ => by rw [hlen, h.rest_eq]; exact hmeets.1) (by rw [hlen]; exact hmeets.2)
      rw [hlen, ← hsplit] at heq
      exact ⟨buf', by rw [run, senRbufItoh, heq]; rfl, hholds⟩
  | itob id =>
      have hlen : (senStrItob id).length = 5 := by simp [senStrItob]
      obtain ⟨buf', heq, hholds⟩ := h.put hplace (senStrItob id) [] (by simp)
        (by simp) (by rw [hlen]; exact hmeets)
      rw [hlen, List.append_nil] at heq
      exact ⟨buf', by rw [run, senRbufItob, heq]; rfl, hholds⟩
  | strEsc s len encoding => exact h.writes hplace _ hmeets

end Step

/-- The calls of a sequence, each on the buffer that the ones before it leave. -/
def runAll (place : Nat → Nat → Option Nat) (margin : Nat) (calls : List RbufCall)
    (buf : SenRbuf) : Option SenRbuf :=
  calls.foldlM (run place margin) buf

/-- Whether `p` holds of every call of a sequence and the buffer it finds. -/
def Throughout (place : Nat → Nat → Option Nat) (margin : Nat)
    (p : SenRbuf → RbufCall → Prop) : List RbufCall → SenRbuf → Prop
  | [], _ => True
  | call :: calls, buf =>
      p buf call ∧ ∀ buf' ∈ call.run place margin buf, Throughout place margin p calls buf'

end RbufCall

section Runs

variable {place : Nat → Nat → Option Nat} {margin : Nat} {buf : SenRbuf}

theorem holds_runAll (hplace : Allocates place) {asked : List (Option UInt8)}
    (h : buf.Holds margin asked) (calls : List RbufCall)
    (hok : RbufCall.Throughout place margin (fun buf call => call.Ok buf) calls buf)
    (hmeets : RbufCall.Throughout place margin (fun buf call => call.Meets margin buf) calls buf) :
    ∃ buf', RbufCall.runAll place margin calls buf = some buf' ∧
      buf'.Holds margin (calls.foldl RbufCall.asks asked) := by
  induction calls generalizing buf asked with
  | nil => exact ⟨buf, rfl, h⟩
  | cons call calls ih =>
      obtain ⟨next, heq, hholds⟩ := call.holds_run hplace h hok.1 hmeets.1
      obtain ⟨buf', hrest, hdone⟩ := ih hholds (hok.2 next heq) (hmeets.2 next heq)
      refine ⟨buf', ?_, hdone⟩
      rw [RbufCall.runAll, List.foldlM_cons, heq]
      exact hrest

/-- **A growing buffer is not overrun.** Behind `sen_rbuf_init` no sequence of calls stores outside
of the room, as long as sizes do not wrap around, the least number of a type is not written, and
`sen_rbuf_itoh` never finds exactly eight bytes left. The pointers stay in order then, and the text
is what was asked for. -/
theorem rbuf_not_overrun (hplace : Allocates place) (size : Nat) (calls : List RbufCall)
    (hok : RbufCall.Throughout place margin (fun buf call => call.Ok buf) (.init size :: calls) buf)
    (hmeets : RbufCall.Throughout place margin (fun buf call => call.Meets margin buf)
      (.init size :: calls) buf) :
    ∃ buf', RbufCall.runAll place margin (.init size :: calls) buf = some buf' ∧
      buf'.head ≤ buf'.curr ∧ buf'.curr ≤ buf'.tail ∧
      Covers (calls.foldl RbufCall.asks []) (buf'.mem.read buf'.head (buf'.curr - buf'.head)) := by
  obtain ⟨buf', heq, hholds⟩ := holds_runAll hplace (RbufCall.holds_init hplace hmeets.1) calls
    (hok.2 _ rfl) (hmeets.2 _ rfl)
  exact ⟨buf', heq, hholds.head_le, hholds.curr_le, hholds.text⟩

/-- An allocator that puts every block at the same place. -/
def onePlace (_ _ : Nat) : Option Nat := some 1

theorem onePlace_allocates : Allocates onePlace := fun _ size hsize =>
  ⟨1, rfl, by decide, by unfold rbufUnit at hsize; omega⟩

/-- A buffer before `sen_rbuf_init`. -/
def blankRbuf : SenRbuf := ⟨fun _ => 0, 0, 0, 0, 0⟩

/-- A hexadecimal number in a new buffer of one unit. -/
theorem rbuf_not_overrun_itoh :
    ∃ buf', RbufCall.runAll onePlace 0 [.init 1, .itoh 47] blankRbuf = some buf' ∧
      buf'.head ≤ buf'.curr ∧ buf'.curr ≤ buf'.tail ∧
      Covers ([RbufCall.itoh 47].foldl RbufCall.asks [])
        (buf'.mem.read buf'.head (buf'.curr - buf'.head)) := by
  refine rbuf_not_overrun onePlace_allocates 1 [.itoh 47] ⟨trivial, fun _ _ => ⟨trivial, ?_⟩⟩
    ⟨fun _ => by unfold NoWrap; decide, ?_⟩
  · exact fun _ _ => trivial
  · rintro _ ⟨⟩
    exact ⟨⟨by decide, by unfold NoWrap; decide⟩, fun _ _ => trivial⟩

/-- Of a unit 4088 bytes are taken, which leaves eight: the terminator of a hexadecimal number
is stored at `tail`. -/
theorem rbuf_not_overrun_fails :
    RbufCall.runAll onePlace 0 [.init 1, .space 4088, .itoh 47] blankRbuf = none := rfl

end Runs

end Senna.Str
