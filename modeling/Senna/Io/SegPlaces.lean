/-
# The places of a segmented file

A segmented file is a row of files of `SEN_IO_FILE_SIZE` bytes. The first one begins with the
header, and the segments in it are moved down to the end of the header; what this leaves at the end
of the first file is not used. Values, windows and segments are each brought to their file and
position by a computation of their own. They agree on a range of bytes that ends in its file. A
value that goes on in the next file is split at the end of the file, which in the first file is not
where its segments end; the header of a value is not always split; and a window for reading and
writing counts the offset in its segment twice.
-/

import Senna.Io.SegCall

namespace Senna.Io

/-- `IO_HEADER_SIZE` -/
def ioHeaderSize : Nat := 64

/-- `for (b = pagesize; b < total_header_size; b += pagesize);` for a number of rounds. -/
def headerPages (pagesize total : Nat) : Nat → Nat → Nat
  | 0, b => b
  | k + 1, b =>
      if b < total then headerPages pagesize total k ((b + pagesize) % 2 ^ 32) else b

/-- `sen_io_create`; the rounds of its loop are enough for pages of any size. -/
def senIoCreate (pagesize headerSize segmentSize maxSegment : Nat) : SenIo :=
  let total := (ioHeaderSize + maxSegment * 4 + headerSize) % 2 ^ 32
  let b := headerPages pagesize total total pagesize
  { maxSegment := maxSegment
    segmentSize := segmentSize
    currSize := b
    base := b
    baseSeg := (b + segmentSize - 1) % 2 ^ 32 / segmentSize
    v08p := false
    opened := fun fno => fno == 0
    maps := fun _ => { nref := 0, map := none, count := 0 }
    nmaps := 0
    count := 0 }

/-- `gen_pathname`: the digits behind the path of a file, of which the first one has none. -/
def genPathname (fno : Nat) : Option Nat := if fno = 0 then none else some (fno % 2 ^ 12)

/-- Where a place is, by the name of its file. -/
def named (p : Nat × Nat) : Option Nat × Nat := (genPathname p.1, p.2)

/-- Bytes of one file, from a position on. -/
structure FileRun where
  file : Nat
  pos : Nat
  len : Nat
  deriving DecidableEq

/-- The places of the bytes: their files and positions. -/
def FileRun.bytes (run : FileRun) : List (Nat × Nat) :=
  (List.range run.len).map fun k => (run.file, run.pos + k)

/-- The places of several runs. -/
def runsBytes (runs : List FileRun) : List (Nat × Nat) := runs.flatMap FileRun.bytes

namespace SenIo

variable (io : SenIo)

/-- `segments_per_file` -/
def segmentsPerFile : Nat := senIoFileSize / io.segmentSize

/-- `fno` and `pos` as all functions on values and windows compute them. -/
def offsetPlace (segment offset : Nat) : Nat × Nat :=
  let bseg := (segment + io.baseSeg) % 2 ^ 32
  let fno := bseg / io.segmentsPerFile
  let base := if fno ≠ 0 then 0 else u32Sub io.base (io.baseSeg * io.segmentSize % 2 ^ 32)
  (fno, (bseg % io.segmentsPerFile * io.segmentSize + offset + base) % 2 ^ 32)

/-- `sizeof(sen_io_ja_ehead)` -/
def jaEheadSize : Nat := 8

/-- The bytes of a value in its first file, and the rest. -/
def jaSplit (pos size : Nat) : Nat × Nat :=
  if pos + size > senIoFileSize then
    (u32Sub senIoFileSize pos, (pos + size - senIoFileSize) % 2 ^ 32)
  else (size, 0)

/-- The loop over the files behind the first one. -/
def restRuns (fno rest : Nat) : List FileRun :=
  if rest = 0 then []
  else
    let size := if rest > senIoFileSize then senIoFileSize else rest
    ⟨fno + 1, 0, size⟩ :: restRuns (fno + 1) (rest - size)
termination_by rest
decreasing_by
  have hsize : 0 < senIoFileSize := by decide
  grind

/-- `sen_io_read_ja` -/
def readJa (segment offset valueLen : Nat) : List FileRun :=
  let p := io.offsetPlace segment offset
  let s := jaSplit p.2 ((valueLen + jaEheadSize) % 2 ^ 32)
  ⟨p.1, p.2, s.1⟩ :: restRuns p.1 s.2

/-- `sen_io_write_ja`; a value of more than 256 bytes is written behind its header. -/
def writeJa (segment offset valueLen : Nat) : List FileRun :=
  let p := io.offsetPlace segment offset
  let s := jaSplit p.2 ((valueLen + jaEheadSize) % 2 ^ 32)
  let runs : List FileRun :=
    if valueLen ≤ 256 then [⟨p.1, p.2, s.1⟩]
    else [⟨p.1, p.2, jaEheadSize⟩,
      ⟨p.1, p.2 + jaEheadSize, (s.1 + 2 ^ 64 - jaEheadSize) % 2 ^ 64⟩]
  runs ++ restRuns p.1 s.2

/-- `sen_io_write_ja_ehead` -/
def writeJaEhead (segment offset : Nat) : List FileRun :=
  let p := io.offsetPlace segment offset
  [⟨p.1, p.2, jaEheadSize⟩]

/-- `sen_io_rw_mode` -/
inductive RwMode
  | rdonly
  | rdwr
  | wronly
  deriving DecidableEq, Repr

/-- `sen_io_win_map` with the transfer of its unmapping; `none` where it returns `NULL`. Memory is
mapped from `pos` on and `iw->addr` is `offset` behind its begin. -/
def winMap (os : Mapper) (mode : RwMode) (segment offset size : Nat) : Option FileRun :=
  let s := if offset ≥ io.segmentSize then
      ((segment + offset / io.segmentSize) % 2 ^ 32, offset % io.segmentSize)
    else (segment, offset)
  let nseg := (s.2 + size + io.segmentSize - 1) % 2 ^ 32 / io.segmentSize
  let bseg := (s.1 + io.baseSeg) % 2 ^ 32
  let p := io.offsetPlace s.1 s.2
  if size = 0 ∨ (s.1 + nseg) % 2 ^ 32 > io.maxSegment ∨
      p.1 ≠ u32Sub (bseg + nseg) 1 / io.segmentsPerFile then none
  else
    match mode with
    | .rdwr =>
        if nseg > 0 then
          (os.mmap p.1 p.2 (nseg * io.segmentSize % 2 ^ 32)).map fun _ => ⟨p.1, p.2 + s.2, size⟩
        else none
    | .rdonly | .wronly => some ⟨p.1, p.2, size⟩

/-- A range of bytes. -/
structure Range where
  segment : Nat
  offset : Nat
  length : Nat

/-- The linear address of the first byte. -/
def start (r : Range) : Nat := r.segment * io.segmentSize + r.offset

/-- The bytes of a range where `SEG_MAP` maps the segments they are in. -/
def segBytes (r : Range) : List (Nat × Nat) :=
  (List.range r.length).map fun k =>
    let p := io.place ((io.start r + k) / io.segmentSize)
    (p.1, p.2 + (io.start r + k) % io.segmentSize)

/-- The ways to get at a range of bytes. -/
inductive Access
  | writeJa
  | readJa
  | writeJaEhead
  | winMap (mode : RwMode)
  | segMap

/-- The places where the bytes of a range are found; `none` where an access is not for ranges of
this length, or is refused. The length of a value counts its header. -/
def bytes (os : Mapper) (r : Range) : Access → Option (List (Nat × Nat))
  | .writeJa =>
      if 8 ≤ r.length then some (runsBytes (io.writeJa r.segment r.offset (r.length - 8))) else none
  | .readJa =>
      if 8 ≤ r.length then some (runsBytes (io.readJa r.segment r.offset (r.length - 8))) else none
  | .writeJaEhead =>
      if r.length = 8 then some (runsBytes (io.writeJaEhead r.segment r.offset)) else none
  | .winMap mode => (io.winMap os mode r.segment r.offset r.length).map FileRun.bytes
  | .segMap => some (io.segBytes r)

/-- The range lies inside the segments of the file. -/
structure Inside (r : Range) : Prop where
  offset_lt : r.offset < 2 ^ 32
  length_lt : r.length < 2 ^ 32
  end_le : io.start r + r.length ≤ io.maxSegment * io.segmentSize

/-- Two ranges without a common address. -/
def Apart (r₁ r₂ : Range) : Prop :=
  io.start r₁ + r₁.length ≤ io.start r₂ ∨ io.start r₂ + r₂.length ≤ io.start r₁

/-- No access to two ranges gets at a place that is not its own. -/
structure PlacesOk (os : Mapper) (r₁ r₂ : Range) : Prop where
  same : ∀ r, r = r₁ ∨ r = r₂ → ∀ a bs, io.bytes os r a = some bs → bs = io.segBytes r
  apart : io.Apart r₁ r₂ → ∀ a₁ a₂ bs₁ bs₂, io.bytes os r₁ a₁ = some bs₁ →
    io.bytes os r₂ a₂ = some bs₂ → (bs₁.map named).Disjoint (bs₂.map named)
  header : ∀ r, r = r₁ ∨ r = r₂ → ∀ a bs, io.bytes os r a = some bs →
    ∀ p ∈ bs, genPathname p.1 = none → io.base ≤ p.2

/-- The position of a range in its file, without the shift of the first file. -/
def filePos (r : Range) : Nat :=
  (r.segment + io.baseSeg) % io.segmentsPerFile * io.segmentSize + r.offset

/-- How far the segments of a file are moved down. -/
def shift (fno : Nat) : Nat := if fno = 0 then io.baseSeg * io.segmentSize - io.base else 0

/-- The address of the first byte, with the room for the header. -/
def address (r : Range) : Nat := io.baseSeg * io.segmentSize + io.start r

/-- No two bytes of the ranges, both behind the first file, are a multiple of 4096 files apart. -/
def Unwrapped (r₁ r₂ : Range) : Prop :=
  ∀ i < r₁.length, ∀ j < r₂.length, senIoFileSize ≤ io.address r₁ + i →
    senIoFileSize ≤ io.address r₂ + j →
    (io.address r₁ + i) % (senIoFileSize * 2 ^ 12) = (io.address r₂ + j) %
        (senIoFileSize * 2 ^ 12) →
    io.address r₁ + i = io.address r₂ + j

/-- The ranges that all accesses find at one place. -/
structure InPlace (os : Mapper) (r : Range) : Prop where
  value : 8 ≤ r.length → io.filePos r + r.length ≤ senIoFileSize ∨
    8 < r.length ∧ io.shift ((r.segment + io.baseSeg) / io.segmentsPerFile) = 0 ∧
      io.filePos r + (if 264 < r.length then 8 else 0) ≤ senIoFileSize
  window : r.offset % io.segmentSize + r.length + io.segmentSize ≤ 2 ^ 32 ∨
    r.offset % io.segmentSize + r.length ≤ 2 ^ 32 ∧
      io.address r / io.segmentSize % io.segmentsPerFile = 0
  mapped : r.length ≠ 0 → r.offset % io.segmentSize ≠ 0 →
    io.address r / senIoFileSize = (io.address r + r.length - 1) / senIoFileSize →
    os.mmap (io.address r / senIoFileSize)
      (io.address r % senIoFileSize - io.shift (io.address r / senIoFileSize))
      ((r.offset % io.segmentSize + r.length + io.segmentSize - 1) / io.segmentSize *
        io.segmentSize) = none

/-- What `sen_io_create` makes sure of. -/
structure Laid : Prop where
  dvd : io.segmentSize ∣ senIoFileSize
  base_pos : 0 < io.base
  base_le : io.base ≤ io.baseSeg * io.segmentSize
  lt_base : io.baseSeg * io.segmentSize < io.base + io.segmentSize
  base_fits : io.base + io.segmentSize ≤ 2 ^ 32
  segs_fit : io.maxSegment + io.baseSeg < 2 ^ 32

/-- The loop stops at the first page end behind the header. -/
theorem headerPages_spec {pagesize total : Nat} (hpage : 0 < pagesize)
    (hfits : total + pagesize < 2 ^ 32) {k b : Nat} (hb : pagesize ≤ b) (hle : b ≤ total + pagesize)
    (hk : total ≤ b + k) :
    pagesize ≤ headerPages pagesize total k b ∧ total ≤ headerPages pagesize total k b ∧
      headerPages pagesize total k b ≤ total + pagesize := by
  induction k generalizing b with
  | zero => exact ⟨hb, hk, hle⟩
  | succ k ih =>
      rw [headerPages]
      split
      · rw [Nat.mod_eq_of_lt (by omega)]
        exact ih (by omega) (by omega) (by omega)
      · exact ⟨hb, by omega, hle⟩

theorem laid_senIoCreate {pagesize headerSize segmentSize maxSegment : Nat} (hpage : 0 < pagesize)
    (hdvd : segmentSize ∣ senIoFileSize)
    (hfits : ioHeaderSize + maxSegment * 4 + headerSize + pagesize ≤ 2 ^ 31) :
    (senIoCreate pagesize headerSize segmentSize maxSegment).Laid := by
  have hpos : 0 < segmentSize := Nat.pos_of_dvd_of_pos hdvd (by decide)
  have hmax : segmentSize ≤ 2 ^ 30 := Nat.le_of_dvd (by decide) hdvd
  obtain ⟨total, htotal⟩ : ∃ n, n = ioHeaderSize + maxSegment * 4 + headerSize := ⟨_, rfl⟩
  obtain ⟨hlow, -, hhigh⟩ := @headerPages_spec pagesize total hpage (by omega) total pagesize le_rfl
    (by omega) (by omega)
  obtain ⟨b, hb⟩ : ∃ b, b = headerPages pagesize total total pagesize := ⟨_, rfl⟩
  rw [← hb] at hlow hhigh
  have hmod : (ioHeaderSize + maxSegment * 4 + headerSize) % 2 ^ 32 = total := by omega
  have hbase : (senIoCreate pagesize headerSize segmentSize maxSegment).base = b := by
    show headerPages _ _ _ _ = b
    rw [hmod, hb]
  have hseg : (senIoCreate pagesize headerSize segmentSize maxSegment).baseSeg =
      (b + segmentSize - 1) / segmentSize := by
    show (headerPages _ _ _ _ + segmentSize - 1) % 2 ^ 32 / segmentSize = _
    rw [hmod, ← hb, Nat.mod_eq_of_lt (by omega)]
  obtain ⟨q, hq⟩ : ∃ n, n = (b + segmentSize - 1) / segmentSize := ⟨_, rfl⟩
  rw [← hq] at hseg
  have hdiv := Nat.div_add_mod (b + segmentSize - 1) segmentSize
  have hrest := Nat.mod_lt (b + segmentSize - 1) hpos
  rw [Nat.mul_comm, ← hq] at hdiv
  have hle : q ≤ b := by
    rw [hq]
    apply Nat.le_of_lt_succ
    rw [Nat.div_lt_iff_lt_mul hpos, Nat.succ_mul]
    have := Nat.le_mul_of_pos_right b hpos
    omega
  have hlowq : b ≤ q * segmentSize := by omega
  have hhighq : q * segmentSize < b + segmentSize := by omega
  have hsegs : maxSegment + q < 2 ^ 32 := by
    unfold ioHeaderSize at hfits htotal
    omega
  constructor
  · exact hdvd
  · omega
  · rwa [hbase, hseg]
  · rwa [hbase, hseg]
  · rw [hbase]
    show b + segmentSize ≤ _
    omega
  · rwa [hseg]

/-- The place of an address: the files are full, but for the shift of the first one. -/
def placeOf (a : Nat) : Nat × Nat :=
  (a / senIoFileSize, a % senIoFileSize - io.shift (a / senIoFileSize))

/-- The places of some bytes from an address on. -/
def placesFrom (a n : Nat) : List (Nat × Nat) := (List.range n).map fun k => io.placeOf (a + k)

section

variable {io} {r r₁ r₂ : Range}

theorem Laid.pos (h : io.Laid) : 0 < io.segmentSize := Nat.pos_of_dvd_of_pos h.dvd (by decide)

theorem Laid.file_eq (h : io.Laid) : io.segmentSize * io.segmentsPerFile = senIoFileSize :=
  Nat.mul_div_cancel' h.dvd

theorem Laid.perFile_pos (h : io.Laid) : 0 < io.segmentsPerFile := by
  apply Nat.pos_of_ne_zero
  intro hzero
  have heq := h.file_eq
  rw [hzero] at heq
  simp [senIoFileSize] at heq

theorem shift_le (io : SenIo) (fno : Nat) : io.shift fno ≤ io.baseSeg * io.segmentSize -
    io.base := by
  unfold shift
  split <;> omega

/-- A segment begins its file at a multiple of the segment size. -/
theorem Laid.address_eq (h : io.Laid) (segment offset : Nat) :
    (segment + io.baseSeg) / io.segmentsPerFile * senIoFileSize +
        ((segment + io.baseSeg) % io.segmentsPerFile * io.segmentSize + offset) =
      io.baseSeg * io.segmentSize + (segment * io.segmentSize + offset) := by
  have hdiv := Nat.div_add_mod (segment + io.baseSeg) io.segmentsPerFile
  calc _ = (io.segmentsPerFile * ((segment + io.baseSeg) / io.segmentsPerFile) +
        (segment + io.baseSeg) % io.segmentsPerFile) * io.segmentSize + offset := by
        rw [← h.file_eq]
        ring
    _ = _ := by
        rw [hdiv]
        ring

/-- In the first file there is room for the shift below a segment. -/
theorem Laid.shift_le_filePos (h : io.Laid) (segment offset : Nat) :
    io.shift ((segment + io.baseSeg) / io.segmentsPerFile) ≤
      (segment + io.baseSeg) % io.segmentsPerFile * io.segmentSize + offset := by
  have heq := h.address_eq segment offset
  have hle := io.shift_le ((segment + io.baseSeg) / io.segmentsPerFile)
  by_cases hfno : (segment + io.baseSeg) / io.segmentsPerFile = 0
  · rw [hfno] at heq hle ⊢
    omega
  · simp [shift, hfno]

theorem Laid.offsetPlace_eq (h : io.Laid) {segment offset : Nat}
    (hseg : segment + io.baseSeg < 2 ^ 32) :
    io.offsetPlace segment offset = ((segment + io.baseSeg) / io.segmentsPerFile,
      ((segment + io.baseSeg) % io.segmentsPerFile * io.segmentSize + offset -
        io.shift ((segment + io.baseSeg) / io.segmentsPerFile)) % 2 ^ 32) := by
  have hshift := h.shift_le_filePos segment offset
  have hbase := h.base_le
  have hlt := h.lt_base
  have hfits := h.base_fits
  unfold offsetPlace
  rw [Nat.mod_eq_of_lt hseg]
  by_cases hfno : (segment + io.baseSeg) / io.segmentsPerFile = 0
  · simp only [hfno, ne_eq, not_true_eq_false, if_false, shift, if_true] at hshift ⊢
    congr 1
    unfold u32Sub
    omega
  · simp [hfno, shift]

/-- File and position of an address, by its segment and its offset there. -/
theorem Laid.address_split (h : io.Laid) (segment : Nat) {offset : Nat} (hoffset : offset <
    io.segmentSize) :
    (io.baseSeg * io.segmentSize + (segment * io.segmentSize + offset)) / senIoFileSize =
        (segment + io.baseSeg) / io.segmentsPerFile ∧
      (io.baseSeg * io.segmentSize + (segment * io.segmentSize + offset)) % senIoFileSize =
        (segment + io.baseSeg) % io.segmentsPerFile * io.segmentSize + offset := by
  have heq := h.address_eq segment offset
  have hq := Nat.mod_lt (segment + io.baseSeg) h.perFile_pos
  have hroom : (segment + io.baseSeg) % io.segmentsPerFile * io.segmentSize + io.segmentSize ≤
      senIoFileSize := by
    rw [← Nat.succ_mul, ← h.file_eq, Nat.mul_comm]
    exact Nat.mul_le_mul_left _ hq
  have hlt : (segment + io.baseSeg) % io.segmentsPerFile * io.segmentSize + offset <
      senIoFileSize := by omega
  rw [← heq, Nat.mul_comm _ senIoFileSize]
  constructor
  · rw [Nat.mul_add_div (by decide), Nat.div_eq_of_lt hlt, Nat.add_zero]
  · rw [Nat.mul_add_mod, Nat.mod_eq_of_lt hlt]

theorem Laid.offsetPlace_of_lt (h : io.Laid) {segment offset : Nat}
    (hseg : segment + io.baseSeg < 2 ^ 32) (hoffset : offset < io.segmentSize) :
    io.offsetPlace segment offset =
      io.placeOf (io.baseSeg * io.segmentSize + (segment * io.segmentSize + offset)) := by
  obtain ⟨hfile, hpos⟩ := h.address_split segment hoffset
  have hsize : senIoFileSize < 2 ^ 32 := by decide
  have hlt := Nat.mod_lt (io.baseSeg * io.segmentSize + (segment * io.segmentSize + offset))
    (Nat.pos_of_ne_zero (by decide : senIoFileSize ≠ 0))
  rw [h.offsetPlace_eq hseg, placeOf, ← hpos, ← hfile, Nat.mod_eq_of_lt (by omega)]

theorem Laid.place_eq (h : io.Laid) {a : Nat} (hseg : a / io.segmentSize + io.baseSeg < 2 ^ 32) :
    ((io.place (a / io.segmentSize)).1,
        (io.place (a / io.segmentSize)).2 + a % io.segmentSize) =
      io.placeOf (io.baseSeg * io.segmentSize + a) := by
  have hplace : io.place (a / io.segmentSize) = io.offsetPlace (a / io.segmentSize) 0 := rfl
  have hshift := h.shift_le_filePos (a / io.segmentSize) 0
  obtain ⟨hfile, hpos⟩ := h.address_split (a / io.segmentSize) (Nat.mod_lt a h.pos)
  obtain ⟨hfile₀, hpos₀⟩ := h.address_split (a / io.segmentSize) h.pos
  rw [Nat.div_add_mod' a io.segmentSize] at hfile hpos
  rw [hplace, h.offsetPlace_of_lt hseg h.pos, placeOf, placeOf, hfile, hpos, hfile₀, hpos₀]
  congr 1
  dsimp only
  omega

theorem Inside.segment_lt (h : io.Laid) (hr : io.Inside r) {k : Nat} (hk : k < r.length) :
    (io.start r + k) / io.segmentSize < io.maxSegment := by
  rw [Nat.div_lt_iff_lt_mul h.pos]
  have := hr.end_le
  omega

theorem Inside.segment_fits (h : io.Laid) (hr : io.Inside r) (hlen : r.length ≠ 0) :
    r.segment + io.baseSeg < 2 ^ 32 := by
  have hlt := hr.segment_lt h (Nat.pos_of_ne_zero hlen)
  have hfit := h.segs_fit
  have hle : r.segment ≤ (io.start r + 0) / io.segmentSize := by
    rw [Nat.le_div_iff_mul_le h.pos, start]
    omega
  omega

/-- `SEG_MAP` finds the bytes at the places of their addresses. -/
theorem segBytes_eq (h : io.Laid) (hr : io.Inside r) :
    io.segBytes r = io.placesFrom (io.address r) r.length := by
  apply List.map_congr_left
  intro k hk
  have hseg := hr.segment_lt h (List.mem_range.mp hk)
  have hfit := h.segs_fit
  rw [address, Nat.add_assoc, ← h.place_eq (by omega)]

/-- Different addresses of segments have different places. -/
theorem placeOf_inj {a b : Nat} (ha : io.baseSeg * io.segmentSize ≤ a)
    (hb : io.baseSeg * io.segmentSize ≤ b) (hab : io.placeOf a = io.placeOf b) : a = b := by
  obtain ⟨hfile, hpos⟩ := Prod.mk.inj hab
  have hdiva := Nat.div_add_mod a senIoFileSize
  have hdivb := Nat.div_add_mod b senIoFileSize
  rw [← hfile] at hpos hdivb
  have hle := io.shift_le (a / senIoFileSize)
  by_cases hzero : a / senIoFileSize = 0
  · rw [hzero] at hpos hdiva hdivb hle
    omega
  · have hshift : io.shift (a / senIoFileSize) = 0 := by simp [shift, hzero]
    rw [hshift] at hpos
    omega

/-- The places of segments lie behind the header. -/
theorem Laid.base_le_placeOf (h : io.Laid) {a : Nat} (ha : io.baseSeg * io.segmentSize ≤ a)
    (hfile : (io.placeOf a).1 = 0) : io.base ≤ (io.placeOf a).2 := by
  have hdiv := Nat.div_add_mod a senIoFileSize
  have hbase := h.base_le
  change a / senIoFileSize = 0 at hfile
  show _ ≤ a % senIoFileSize - io.shift (a / senIoFileSize)
  rw [hfile] at hdiv ⊢
  simp only [shift, if_true]
  omega

theorem placesFrom_add (io : SenIo) (a m n : Nat) :
    io.placesFrom a (m + n) = io.placesFrom a m ++ io.placesFrom (a + m) n := by
  rw [placesFrom, List.range_add, List.map_append, List.map_map]
  congr 1
  apply List.map_congr_left
  intro k _
  simp [Nat.add_assoc]

theorem placeOf_eq_of_placesFrom {a b n : Nat} (hn : 0 < n)
    (heq : io.placesFrom a n = io.placesFrom b n) : io.placeOf a = io.placeOf b := by
  have hget := congrArg (fun l => l[0]?) heq
  simpa [placesFrom, List.getElem?_range hn] using hget

/-- Addresses in one file are a run. -/
theorem placesFrom_eq_run {a n pos : Nat} (hfit : a % senIoFileSize + n ≤ senIoFileSize)
    (hpos : pos + io.shift (a / senIoFileSize) = a % senIoFileSize ∨ n = 0) :
    io.placesFrom a n = FileRun.bytes ⟨a / senIoFileSize, pos, n⟩ := by
  apply List.map_congr_left
  intro k hk
  have hlt := List.mem_range.mp hk
  have hdiv := Nat.div_add_mod a senIoFileSize
  have hadd : a + k = senIoFileSize * (a / senIoFileSize) + (a % senIoFileSize + k) := by omega
  have hin : a % senIoFileSize + k < senIoFileSize := by omega
  have hfile : (a + k) / senIoFileSize = a / senIoFileSize := by
    rw [hadd, Nat.mul_add_div (by decide), Nat.div_eq_of_lt hin, Nat.add_zero]
  have hmod : (a + k) % senIoFileSize = a % senIoFileSize + k := by
    rw [hadd, Nat.mul_add_mod, Nat.mod_eq_of_lt hin]
  rw [placeOf, hfile, hmod]
  congr 1
  dsimp only
  omega

theorem restRuns_of_pos {fno rest size : Nat} (hrest : rest ≠ 0)
    (hsize : size = if rest > senIoFileSize then senIoFileSize else rest) :
    restRuns fno rest = ⟨fno + 1, 0, size⟩ :: restRuns (fno + 1) (rest - size) := by
  rw [restRuns, if_neg hrest, hsize]

/-- The files behind the first one are filled from their begin. -/
theorem runsBytes_restRuns (io : SenIo) (fno rest : Nat) :
    runsBytes (restRuns fno rest) = io.placesFrom ((fno + 1) * senIoFileSize) rest := by
  induction rest using Nat.strong_induction_on generalizing fno with
  | _ rest ih =>
      by_cases hzero : rest = 0
      · rw [hzero, restRuns]
        rfl
      · obtain ⟨size, hsize⟩ :
            ∃ n, n = if rest > senIoFileSize then senIoFileSize else rest := ⟨_, rfl⟩
        have hpos : 0 < senIoFileSize := by decide
        have hle : 0 < size ∧ size ≤ rest ∧ size ≤ senIoFileSize ∧
            (size = senIoFileSize ∨ size = rest) := by
          rw [hsize]
          split <;> omega
        have hmod : (fno + 1) * senIoFileSize % senIoFileSize = 0 := Nat.mul_mod_left _ _
        have hdiv : (fno + 1) * senIoFileSize / senIoFileSize = fno + 1 :=
          Nat.mul_div_cancel _ hpos
        have hshift : io.shift (fno + 1) = 0 := if_neg (Nat.succ_ne_zero fno)
        have hrun := @placesFrom_eq_run io ((fno + 1) * senIoFileSize) size 0 (by omega)
          (.inl (by rw [hmod, hdiv, hshift]))
        rw [hdiv] at hrun
        rw [restRuns_of_pos hzero hsize, runsBytes, List.flatMap_cons, ← hrun]
        rw [← runsBytes, ih (rest - size) (by omega)]
        obtain ⟨left, hleft⟩ : ∃ n, n = rest - size := ⟨_, rfl⟩
        have hrest : rest = size + left := by omega
        have htail : io.placesFrom ((fno + 1 + 1) * senIoFileSize) left =
            io.placesFrom ((fno + 1) * senIoFileSize + size) left := by
          rcases hle.2.2.2 with hfull | hall
          · rw [hfull, Nat.succ_mul (fno + 1)]
          · have hnone : left = 0 := by omega
            simp only [hnone, placesFrom, List.range_zero, List.map_nil]
        rw [← hleft, htail, ← placesFrom_add, ← hrest]

/-- The bytes of the first run are in its file. -/
theorem file_of_run {fno pos len a n : Nat} {rest : List FileRun}
    (heq : runsBytes (⟨fno, pos, len⟩ :: rest) = io.placesFrom a n) {k : Nat} (hk : k < len)
    (hn : k < n) : (a + k) / senIoFileSize = fno ∧ (io.placeOf (a + k)).2 = pos + k := by
  have hget := congrArg (fun l => l[k]?) heq
  simp only [runsBytes, List.flatMap_cons, FileRun.bytes, placesFrom] at hget
  rw [List.getElem?_append_left (by simpa using hk)] at hget
  simp only [List.getElem?_map, List.getElem?_range hk, List.getElem?_range hn, Option.map_some,
    Option.some.injEq] at hget
  exact ⟨(congrArg Prod.fst hget).symm, (congrArg Prod.snd hget).symm⟩

theorem address_eq_filePos (h : io.Laid) (r : Range) :
    io.address r =
      (r.segment + io.baseSeg) / io.segmentsPerFile * senIoFileSize + io.filePos r := by
  rw [filePos, h.address_eq, address, start]

/-- The part of a value in its first file. -/
theorem placesFrom_first (h : io.Laid) {n : Nat} (hfit : io.filePos r + n ≤ senIoFileSize) :
    io.placesFrom (io.address r) n =
      FileRun.bytes ⟨(r.segment + io.baseSeg) / io.segmentsPerFile,
        io.filePos r - io.shift ((r.segment + io.baseSeg) / io.segmentsPerFile), n⟩ := by
  have hshift := h.shift_le_filePos r.segment r.offset
  change _ ≤ io.filePos r at hshift
  obtain ⟨fno, hfno⟩ : ∃ m, m = (r.segment + io.baseSeg) / io.segmentsPerFile := ⟨_, rfl⟩
  rw [← hfno] at hshift ⊢
  by_cases hn : n = 0
  · simp only [hn, placesFrom, FileRun.bytes, List.range_zero, List.map_nil]
  · have haddr := io.address_eq_filePos h r
    rw [← hfno, Nat.mul_comm] at haddr
    have hlt : io.filePos r < senIoFileSize := by omega
    have hfile : io.address r / senIoFileSize = fno := by
      rw [haddr, Nat.mul_add_div (by decide), Nat.div_eq_of_lt hlt, Nat.add_zero]
    have hpos : io.address r % senIoFileSize = io.filePos r := by
      rw [haddr, Nat.mul_add_mod, Nat.mod_eq_of_lt hlt]
    rw [placesFrom_eq_run (by omega)
      (.inl (show io.filePos r - io.shift fno + _ = _ by rw [hfile, hpos]; omega)), hfile]

theorem Inside.offsetPlace_eq (h : io.Laid) (hr : io.Inside r) (hlen : r.length ≠ 0)
    (hfit : io.filePos r ≤ senIoFileSize) :
    io.offsetPlace r.segment r.offset = ((r.segment + io.baseSeg) / io.segmentsPerFile,
      io.filePos r - io.shift ((r.segment + io.baseSeg) / io.segmentsPerFile)) := by
  have hsize : senIoFileSize < 2 ^ 32 := by decide
  rw [h.offsetPlace_eq (hr.segment_fits h hlen), ← filePos, Nat.mod_eq_of_lt (by omega)]

theorem FileRun.bytes_add (fno pos m n : Nat) :
    FileRun.bytes ⟨fno, pos, m + n⟩ =
      FileRun.bytes ⟨fno, pos, m⟩ ++ FileRun.bytes ⟨fno, pos + m, n⟩ := by
  simp only [FileRun.bytes, List.range_add, List.map_append, List.map_map]
  congr 1
  apply List.map_congr_left
  intro k _
  simp [Nat.add_assoc]

theorem restRuns_zero (fno : Nat) : restRuns fno 0 = [] := by
  rw [restRuns, if_pos rfl]

/-- The split of a value that begins in its file. -/
theorem jaSplit_of_le {pos size : Nat} (hpos : pos ≤ senIoFileSize) (hsize : size < 2 ^ 32) :
    jaSplit pos size =
      if pos + size ≤ senIoFileSize then (size, 0)
      else (senIoFileSize - pos, pos + size - senIoFileSize) := by
  have hfile : senIoFileSize < 2 ^ 32 := by decide
  unfold jaSplit
  by_cases hfit : pos + size ≤ senIoFileSize
  · rw [if_neg (by omega), if_pos hfit]
  · rw [if_pos (by omega), if_neg hfit, u32Sub_of_le hpos hfile, Nat.mod_eq_of_lt (by omega)]

theorem readJa_places (h : io.Laid) (hr : io.Inside r) (hlen : 8 ≤ r.length)
    (hfit : io.filePos r + r.length ≤ senIoFileSize ∨
      io.shift ((r.segment + io.baseSeg) / io.segmentsPerFile) = 0 ∧
        io.filePos r ≤ senIoFileSize) :
    runsBytes (io.readJa r.segment r.offset (r.length - 8)) =
      io.placesFrom (io.address r) r.length := by
  have hlt := hr.length_lt
  have hplace := hr.offsetPlace_eq h (by omega) (by omega)
  have hsize : (r.length - 8 + jaEheadSize) % 2 ^ 32 = r.length := by
    unfold jaEheadSize
    omega
  rw [readJa, hplace, hsize]
  dsimp only
  rw [jaSplit_of_le (by omega) hlt]
  by_cases hin : io.filePos r + r.length ≤ senIoFileSize
  · rw [if_pos (by omega), restRuns_zero, placesFrom_first h hin]
    exact List.append_nil _
  · obtain ⟨hshift, hpos⟩ := hfit.resolve_left hin
    have haddr := io.address_eq_filePos h r
    have hnext : io.address r + (senIoFileSize - io.filePos r) =
        ((r.segment + io.baseSeg) / io.segmentsPerFile + 1) * senIoFileSize := by
      rw [haddr, Nat.succ_mul]
      omega
    have hsum : r.length = senIoFileSize - io.filePos r +
        (io.filePos r + r.length - senIoFileSize) := by omega
    have hfirst := @placesFrom_first io r h (senIoFileSize - io.filePos r) (by omega)
    rw [hshift, Nat.sub_zero] at hfirst ⊢
    rw [if_neg hin, runsBytes, List.flatMap_cons, ← hfirst, ← runsBytes, runsBytes_restRuns io,
      ← hnext, ← placesFrom_add, ← hsum]

/-- A value and its header are written to where they are read, unless the header of a long value
is cut. -/
theorem writeJa_eq_readJa {segment offset valueLen : Nat}
    (hcut : valueLen ≤ 256 ∨ 8 ≤ (jaSplit (io.offsetPlace segment offset).2
      ((valueLen + jaEheadSize) % 2 ^ 32)).1) (hsplit : (jaSplit (io.offsetPlace segment offset).2
      ((valueLen + jaEheadSize) % 2 ^ 32)).1 < 2 ^ 32) :
    runsBytes (io.writeJa segment offset valueLen) =
      runsBytes (io.readJa segment offset valueLen) := by
  rw [writeJa, readJa]
  obtain ⟨s, hs⟩ : ∃ s, s = jaSplit (io.offsetPlace segment offset).2
    ((valueLen + jaEheadSize) % 2 ^ 32) := ⟨_, rfl⟩
  rw [← hs] at hcut hsplit ⊢
  by_cases hval : valueLen ≤ 256
  · rw [if_pos hval]
    rfl
  · have hlow := hcut.resolve_left hval
    have hrest : (s.1 + 2 ^ 64 - jaEheadSize) % 2 ^ 64 = s.1 - jaEheadSize := by
      unfold jaEheadSize
      omega
    have hsum : s.1 = jaEheadSize + (s.1 - jaEheadSize) := by
      unfold jaEheadSize
      omega
    rw [if_neg hval, hrest]
    simp only [runsBytes, List.flatMap_append, List.flatMap_cons, List.flatMap_nil,
      List.append_nil]
    rw [← FileRun.bytes_add, ← hsum]

theorem jaSplit_lt {pos size : Nat} (hsize : size < 2 ^ 32) : (jaSplit pos size).1 < 2 ^ 32 := by
  unfold jaSplit
  split
  · exact Nat.mod_lt _ (by decide)
  · exact hsize

theorem writeJa_places (h : io.Laid) (hr : io.Inside r) (hlen : 8 ≤ r.length)
    (hfit : io.filePos r + r.length ≤ senIoFileSize ∨
      io.shift ((r.segment + io.baseSeg) / io.segmentsPerFile) = 0 ∧
        io.filePos r + (if 264 < r.length then 8 else 0) ≤ senIoFileSize) :
    runsBytes (io.writeJa r.segment r.offset (r.length - 8)) =
      io.placesFrom (io.address r) r.length := by
  have hlt := hr.length_lt
  have hpos : io.filePos r ≤ senIoFileSize := by omega
  have hplace := hr.offsetPlace_eq h (by omega) hpos
  have hsize : (r.length - 8 + jaEheadSize) % 2 ^ 32 = r.length := by
    unfold jaEheadSize
    omega
  rw [writeJa_eq_readJa _ (jaSplit_lt (Nat.mod_lt _ (by decide))), readJa_places h hr hlen]
  · omega
  · rw [hsize, hplace]
    dsimp only
    rw [jaSplit_of_le (by omega) hlt]
    split
    · exact .inr hlen
    · obtain ⟨hshift, hhead⟩ := hfit.resolve_left (by omega)
      rw [hshift]
      split at hhead
      · exact .inr (by dsimp only; omega)
      · exact .inl (by omega)

theorem writeJaEhead_places (h : io.Laid) (hr : io.Inside r) (hlen : r.length = 8)
    (hfit : io.filePos r + r.length ≤ senIoFileSize) :
    runsBytes (io.writeJaEhead r.segment r.offset) = io.placesFrom (io.address r) r.length := by
  rw [writeJaEhead, hr.offsetPlace_eq h (by omega) (by omega), placesFrom_first h hfit, hlen]
  exact List.append_nil _

/-- An address whose file is that of the segment is before the end of the file. -/
theorem filePos_lt_of_file (h : io.Laid) {k : Nat} (hfile : (io.address r + k) / senIoFileSize =
    (r.segment + io.baseSeg) / io.segmentsPerFile) : io.filePos r + k < senIoFileSize := by
  have haddr := io.address_eq_filePos h r
  have hdiv := Nat.div_add_mod (io.address r + k) senIoFileSize
  have hlt := Nat.mod_lt (io.address r + k) (Nat.pos_of_ne_zero (by decide : senIoFileSize ≠ 0))
  rw [hfile, Nat.mul_comm] at hdiv
  omega

/-- Where a value is found at its places, it ends in its file or its file is not shifted. -/
theorem fits_of_readJa (h : io.Laid) (hr : io.Inside r) (hlen : 8 ≤ r.length)
    (heq : runsBytes (io.readJa r.segment r.offset (r.length - 8)) =
      io.placesFrom (io.address r) r.length) :
    io.filePos r + r.length ≤ senIoFileSize ∨
      io.shift ((r.segment + io.baseSeg) / io.segmentsPerFile) = 0 ∧
        io.filePos r ≤ senIoFileSize := by
  by_contra hnot
  obtain ⟨hcross, hbad⟩ := not_or.mp hnot
  have hlt := hr.length_lt
  have hshift := h.shift_le_filePos r.segment r.offset
  change _ ≤ io.filePos r at hshift
  have hsize : (r.length - 8 + jaEheadSize) % 2 ^ 32 = r.length := by
    unfold jaEheadSize
    omega
  have hfile : senIoFileSize < 2 ^ 32 := by decide
  rw [readJa, hsize, h.offsetPlace_eq (hr.segment_fits h (by omega)), ← filePos] at heq
  dsimp only at heq
  obtain ⟨fno, hfno⟩ : ∃ m, m = (r.segment + io.baseSeg) / io.segmentsPerFile := ⟨_, rfl⟩
  have hin : ∀ k, k < (jaSplit ((io.filePos r - io.shift fno) % 2 ^ 32) r.length).1 →
      k < r.length → io.filePos r + k < senIoFileSize := fun k hk hn => by
    rw [← hfno] at heq
    exact filePos_lt_of_file h ((file_of_run heq hk hn).1.trans hfno)
  rw [← hfno] at heq hshift hbad
  by_cases hbefore : io.filePos r < senIoFileSize
  · -- the byte behind the end of the file is looked for in the file
    rw [Nat.mod_eq_of_lt (by omega), jaSplit_of_le (by omega) hlt] at hin
    have hover := hin (senIoFileSize - io.filePos r) (by split <;> dsimp only <;> omega) (by omega)
    omega
  · -- no byte is looked for in the file, so the value begins at its end
    have hnone : (jaSplit ((io.filePos r - io.shift fno) % 2 ^ 32) r.length).1 = 0 := by
      by_contra hsome
      exact hbefore (by simpa using hin 0 (by omega) (by omega))
    have hroom : io.filePos r < senIoFileSize + 2 ^ 32 := by
      have hq := Nat.mod_lt (r.segment + io.baseSeg) h.perFile_pos
      have hle : (r.segment + io.baseSeg) % io.segmentsPerFile * io.segmentSize ≤
          senIoFileSize := by
        rw [← h.file_eq, Nat.mul_comm]
        exact Nat.mul_le_mul_left _ hq.le
      have hoffset := hr.offset_lt
      unfold filePos
      omega
    have hend : (io.filePos r - io.shift fno) % 2 ^ 32 = senIoFileSize := by
      have hpos := Nat.mod_lt (io.filePos r - io.shift fno) (by decide : 2 ^ 32 > 0)
      unfold jaSplit u32Sub at hnone
      split at hnone
      · dsimp only at hnone
        omega
      · dsimp only at hnone
        omega
    have hsum : io.filePos r = senIoFileSize + io.shift fno := by omega
    have hfirst : fno = 0 := by
      by_contra hne
      exact hbad ⟨if_neg hne, by rw [hsum, shift, if_neg hne]; omega⟩
    rw [hend, jaSplit, if_pos (by omega), u32Sub_of_le le_rfl hfile, Nat.sub_self,
      Nat.add_sub_cancel_left, Nat.mod_eq_of_lt hlt, runsBytes, List.flatMap_cons, ← runsBytes,
      runsBytes_restRuns io] at heq
    have hsame := placeOf_eq_of_placesFrom (by omega) heq
    have hrooms : io.baseSeg * io.segmentSize ≤ senIoFileSize := by
      have hdiv : r.segment + io.baseSeg < io.segmentsPerFile := by
        rw [hfirst, eq_comm, Nat.div_eq_zero_iff] at hfno
        exact hfno.resolve_left h.perFile_pos.ne'
      rw [← h.file_eq, Nat.mul_comm]
      exact Nat.mul_le_mul_left _ (by omega)
    have haddr := placeOf_inj (by rw [hfirst]; omega) (by rw [address]; omega) hsame
    rw [io.address_eq_filePos h, ← hfno, hfirst] at haddr
    have hzero : io.shift fno = 0 := by omega
    exact hbad ⟨hzero, by omega⟩

/-- Where a long value is written to its places too, its header ends in its file. -/
theorem header_fits_of_writeJa (h : io.Laid) (hr : io.Inside r) (hlen : 264 < r.length)
    (hpos : io.filePos r ≤ senIoFileSize)
    (heq : runsBytes (io.writeJa r.segment r.offset (r.length - 8)) =
      io.placesFrom (io.address r) r.length) : io.filePos r + 8 ≤ senIoFileSize := by
  rw [writeJa, hr.offsetPlace_eq h (by omega) hpos] at heq
  dsimp only at heq
  rw [if_neg (by omega)] at heq
  have hlast := filePos_lt_of_file h (file_of_run heq (show 7 < 8 by decide) (by omega)).1
  omega

theorem fits_of_writeJaEhead (h : io.Laid) (hr : io.Inside r) (hlen : r.length = 8)
    (hpos : io.filePos r ≤ senIoFileSize)
    (heq : runsBytes (io.writeJaEhead r.segment r.offset) =
      io.placesFrom (io.address r) r.length) : io.filePos r + r.length ≤ senIoFileSize := by
  rw [writeJaEhead, hr.offsetPlace_eq h (by omega) hpos] at heq
  have hlast := filePos_lt_of_file h (file_of_run heq (show 7 < 8 by decide) (by omega)).1
  omega

/-- The segments of a window. -/
def windowSegs (io : SenIo) (r : Range) : Nat :=
  (r.offset % io.segmentSize + r.length + io.segmentSize - 1) / io.segmentSize

theorem address_div (h : io.Laid) (r : Range) :
    io.address r / io.segmentSize = r.segment + r.offset / io.segmentSize + io.baseSeg := by
  have heq : io.address r = r.offset + io.segmentSize * (r.segment + io.baseSeg) := by
    rw [address, start]
    ring
  rw [heq, Nat.add_mul_div_left _ _ h.pos]
  omega

theorem address_mod (r : Range) : io.address r % io.segmentSize = r.offset % io.segmentSize := by
  have heq : io.address r = r.offset + io.segmentSize * (r.segment + io.baseSeg) := by
    rw [address, start]
    ring
  rw [heq, Nat.add_mul_mod_self_left]

/-- The last segment of a window, and the file it is in. -/
theorem windowSegs_last (h : io.Laid) (hlen : r.length ≠ 0) :
    0 < io.windowSegs r ∧ io.address r / io.segmentSize + io.windowSegs r - 1 =
      (io.address r + r.length - 1) / io.segmentSize := by
  have hpos := h.pos
  have hdiv := Nat.div_add_mod (io.address r) io.segmentSize
  have hmod := io.address_mod r
  have hwin : io.windowSegs r =
      (r.offset % io.segmentSize + r.length - 1) / io.segmentSize + 1 := by
    rw [windowSegs, ← Nat.add_div_right _ hpos]
    congr 1
    omega
  have hsum : io.address r + r.length - 1 = r.offset % io.segmentSize + r.length - 1 +
      io.segmentSize * (io.address r / io.segmentSize) := by omega
  rw [hsum, Nat.add_mul_div_left _ _ hpos, hwin, ← Nat.add_assoc, Nat.add_sub_cancel]
  exact ⟨Nat.succ_pos _, Nat.add_comm _ _⟩

theorem Inside.first_lt (h : io.Laid) (hr : io.Inside r) (hlen : r.length ≠ 0) :
    io.address r / io.segmentSize < io.maxSegment + io.baseSeg := by
  have hlt := hr.segment_lt h (Nat.pos_of_ne_zero hlen)
  rw [Nat.add_zero, start, Nat.add_comm, Nat.add_mul_div_right _ _ h.pos] at hlt
  rw [address_div h]
  omega

/-- The test and the access of a window, with the offset brought into a segment. -/
theorem winMap_unfold (h : io.Laid) (hr : io.Inside r) (hlen : r.length ≠ 0) (os : Mapper)
    (mode : RwMode) {nseg : Nat} (hnseg : nseg =
      (r.offset % io.segmentSize + r.length + io.segmentSize - 1) % 2 ^ 32 / io.segmentSize) :
    io.winMap os mode r.segment r.offset r.length =
      if (r.segment + r.offset / io.segmentSize + nseg) % 2 ^ 32 > io.maxSegment ∨
          io.address r / senIoFileSize ≠
            u32Sub (io.address r / io.segmentSize + nseg) 1 / io.segmentsPerFile then none
      else
        match mode with
        | .rdwr =>
            if nseg > 0 then
              (os.mmap (io.placeOf (io.address r)).1 (io.placeOf (io.address r)).2
                (nseg * io.segmentSize % 2 ^ 32)).map fun _ =>
                  ⟨(io.placeOf (io.address r)).1,
                    (io.placeOf (io.address r)).2 + r.offset % io.segmentSize, r.length⟩
            else none
        | .rdonly | .wronly =>
            some ⟨(io.placeOf (io.address r)).1, (io.placeOf (io.address r)).2, r.length⟩ := by
  have hfirst := hr.first_lt h hlen
  have hfit := h.segs_fit
  have hdiv := address_div h r
  have hs : (if r.offset ≥ io.segmentSize then
      ((r.segment + r.offset / io.segmentSize) % 2 ^ 32, r.offset % io.segmentSize)
      else (r.segment, r.offset)) =
      (r.segment + r.offset / io.segmentSize, r.offset % io.segmentSize) := by
    by_cases hge : r.offset ≥ io.segmentSize
    · rw [if_pos hge, Nat.mod_eq_of_lt (by omega)]
    · rw [if_neg hge, Nat.div_eq_of_lt (Nat.lt_of_not_le hge),
        Nat.mod_eq_of_lt (Nat.lt_of_not_le hge), Nat.add_zero]
  have haddr : io.baseSeg * io.segmentSize + ((r.segment + r.offset / io.segmentSize) *
      io.segmentSize + r.offset % io.segmentSize) = io.address r := by
    rw [address, start, Nat.add_mul, Nat.add_assoc (r.segment * _), Nat.div_add_mod']
  have hplace := @Laid.offsetPlace_of_lt io h (r.segment + r.offset / io.segmentSize) _
    (by omega) (Nat.mod_lt r.offset h.pos)
  rw [haddr] at hplace
  unfold winMap
  rw [hs]
  dsimp only
  rw [hplace, ← hnseg, Nat.mod_eq_of_lt (show _ + io.baseSeg < 2 ^ 32 by omega), ← hdiv]
  simp only [hlen, false_or, placeOf]

/-- A window that does not overflow is refused exactly where it goes on in the next file. -/
theorem winMap_eq (h : io.Laid) (hr : io.Inside r) (hlen : r.length ≠ 0) (os : Mapper)
    (mode : RwMode) (hfits : r.offset % io.segmentSize + r.length + io.segmentSize ≤ 2 ^ 32) :
    io.winMap os mode r.segment r.offset r.length =
      if io.address r / senIoFileSize ≠ (io.address r + r.length - 1) / senIoFileSize then none
      else
        match mode with
        | .rdwr =>
            (os.mmap (io.placeOf (io.address r)).1 (io.placeOf (io.address r)).2
              (io.windowSegs r * io.segmentSize)).map fun _ =>
                ⟨(io.placeOf (io.address r)).1,
                  (io.placeOf (io.address r)).2 + r.offset % io.segmentSize, r.length⟩
        | .rdonly | .wronly =>
            some ⟨(io.placeOf (io.address r)).1, (io.placeOf (io.address r)).2, r.length⟩ := by
  obtain ⟨hpos, hlast⟩ := windowSegs_last h hlen
  have hseg := hr.segment_lt h (k := r.length - 1) (by omega)
  have hfit := h.segs_fit
  have hstart : io.address r + r.length - 1 =
      io.start r + (r.length - 1) + io.baseSeg * io.segmentSize := by
    rw [address]
    omega
  have hlast' : (io.address r + r.length - 1) / io.segmentSize =
      (io.start r + (r.length - 1)) / io.segmentSize + io.baseSeg := by
    rw [hstart, Nat.add_mul_div_right _ _ h.pos]
  have hdiv := address_div h r
  obtain ⟨first, hfirst⟩ : ∃ m, m = r.segment + r.offset / io.segmentSize := ⟨_, rfl⟩
  obtain ⟨last, hlastq⟩ : ∃ m, m = (io.start r + (r.length - 1)) / io.segmentSize := ⟨_, rfl⟩
  obtain ⟨nseg, hwin⟩ : ∃ m, m = io.windowSegs r := ⟨_, rfl⟩
  rw [← hlastq] at hseg hlast'
  rw [hlast', hdiv, ← hfirst, ← hwin] at hlast
  have hsub : u32Sub (io.address r / io.segmentSize + nseg) 1 =
      (io.address r + r.length - 1) / io.segmentSize := by
    rw [hlast', hdiv, ← hfirst]
    unfold u32Sub
    omega
  have hmul : nseg * io.segmentSize < 2 ^ 32 := by
    have := Nat.div_mul_le_self (r.offset % io.segmentSize + r.length + io.segmentSize - 1)
      io.segmentSize
    rw [hwin, windowSegs]
    omega
  have hfile : (io.address r + r.length - 1) / io.segmentSize / io.segmentsPerFile =
      (io.address r + r.length - 1) / senIoFileSize := by
    rw [Nat.div_div_eq_div_mul, h.file_eq]
  have hnseg : nseg = (r.offset % io.segmentSize + r.length + io.segmentSize - 1) % 2 ^ 32 /
      io.segmentSize := by
    rw [Nat.mod_eq_of_lt (by omega), hwin, windowSegs]
  rw [← hwin] at hpos ⊢
  rw [winMap_unfold h hr hlen os mode hnseg, hsub, hfile, Nat.mod_eq_of_lt hmul, ← hfirst]
  have hmax : ¬ (first + nseg) % 2 ^ 32 > io.maxSegment := by omega
  simp only [hmax, false_or, gt_iff_lt, hpos, if_true]

theorem div_div_perFile (h : io.Laid) (a : Nat) :
    a / io.segmentSize / io.segmentsPerFile = a / senIoFileSize := by
  rw [Nat.div_div_eq_div_mul, h.file_eq]

/-- The number of segments of a range that cannot be rounded up is 0 or 1. -/
theorem overflow_segs {offset length size : Nat} (hsize : 0 < size) (hmax : size ≤ 2 ^ 30)
    (hoffset : offset < size) (hlength : length < 2 ^ 32)
    (hover : ¬ offset + length + size ≤ 2 ^ 32) :
    (offset + length + size - 1) % 2 ^ 32 / size = if offset + length ≤ 2 ^ 32 then 0 else 1 := by
  have hmod : (offset + length + size - 1) % 2 ^ 32 = offset + length + size - 1 - 2 ^ 32 := by
    omega
  rw [hmod]
  split
  · exact Nat.div_eq_of_lt (by omega)
  · rw [Nat.div_eq_iff hsize]
    omega

theorem Laid.baseSeg_pos (h : io.Laid) : 0 < io.baseSeg := by
  apply Nat.pos_of_ne_zero
  intro hzero
  have hle := h.base_le
  rw [hzero, Nat.zero_mul] at hle
  exact absurd h.base_pos (by omega)

/-- The file of the segment before another one. -/
theorem pred_file (m : Nat) {first : Nat} (hpos : 0 < first) (hlt : first < 2 ^ 32) :
    first / m = u32Sub first 1 / m ↔ ¬ m ∣ first := by
  obtain ⟨k, rfl⟩ : ∃ k, first = k + 1 := ⟨first - 1, by omega⟩
  rw [u32Sub_of_le (by omega) hlt, Nat.add_sub_cancel, Nat.succ_div]
  split <;> simp_all

/-- A range that cannot be rounded up is refused where no segment is left of it and its own is the
first of a file. -/
theorem winMap_eq_none_of_overflow (h : io.Laid) (hr : io.Inside r) (os : Mapper) (mode : RwMode)
    (hlen : r.length ≠ 0)
    (hover : ¬ r.offset % io.segmentSize + r.length + io.segmentSize ≤ 2 ^ 32)
    (hsmall : r.offset % io.segmentSize + r.length ≤ 2 ^ 32)
    (hfirst : io.address r / io.segmentSize % io.segmentsPerFile = 0) :
    io.winMap os mode r.segment r.offset r.length = none := by
  have hsize : io.segmentSize ≤ 2 ^ 30 := Nat.le_of_dvd (by decide) h.dvd
  have hsegs := overflow_segs h.pos hsize (Nat.mod_lt r.offset h.pos) hr.length_lt hover
  rw [if_pos hsmall] at hsegs
  have hlt := hr.first_lt h hlen
  have hfit := h.segs_fit
  have hpos := h.baseSeg_pos
  have hdiv := address_div h r
  have hne := (@pred_file io.segmentsPerFile (io.address r / io.segmentSize)
    (by rw [hdiv]; exact Nat.add_pos_right _ hpos) (hlt.trans hfit)).not.mpr
        (not_not.mpr (Nat.dvd_of_mod_eq_zero hfirst))
  rw [winMap_unfold h hr hlen os mode hsegs.symm, ← div_div_perFile h, if_pos (.inr hne)]

/-- A range that cannot be rounded up is read as if it were in one file, but where no segment is
left of it and its own is the first of a file. -/
theorem winMap_rdonly_of_overflow (h : io.Laid) (hr : io.Inside r) (os : Mapper)
    (hover : ¬ r.offset % io.segmentSize + r.length + io.segmentSize ≤ 2 ^ 32)
    (hkept : ¬ (r.offset % io.segmentSize + r.length ≤ 2 ^ 32 ∧
      io.address r / io.segmentSize % io.segmentsPerFile = 0)) :
    io.winMap os .rdonly r.segment r.offset r.length =
      some ⟨(io.placeOf (io.address r)).1, (io.placeOf (io.address r)).2, r.length⟩ := by
  have hsize : io.segmentSize ≤ 2 ^ 30 := Nat.le_of_dvd (by decide) h.dvd
  have hoffset := Nat.mod_lt r.offset h.pos
  have hlen : r.length ≠ 0 := by omega
  have hsegs := overflow_segs h.pos hsize hoffset hr.length_lt hover
  have hfirst := hr.first_lt h hlen
  have hfit := h.segs_fit
  have hdiv := address_div h r
  have hbase := h.baseSeg_pos
  obtain ⟨seg, hseg⟩ : ∃ m, m = r.segment + r.offset / io.segmentSize := ⟨_, rfl⟩
  obtain ⟨first, hfirstq⟩ : ∃ m, m = io.address r / io.segmentSize := ⟨_, rfl⟩
  obtain ⟨nseg, hnseg⟩ : ∃ m, m = (r.offset % io.segmentSize + r.length + io.segmentSize - 1) %
    2 ^ 32 / io.segmentSize := ⟨_, rfl⟩
  rw [winMap_unfold h hr hlen os .rdonly hnseg, ← div_div_perFile h, ← hseg, ← hfirstq]
  rw [← hfirstq] at hkept hfirst hdiv
  rw [← hseg] at hdiv
  rw [← hnseg] at hsegs
  have hpassed : ¬ ((seg + nseg) % 2 ^ 32 > io.maxSegment ∨
      first / io.segmentsPerFile ≠ u32Sub (first + nseg) 1 / io.segmentsPerFile) := by
    rintro (hmax | hfile)
    · split at hsegs <;> omega
    · by_cases hsmall : r.offset % io.segmentSize + r.length ≤ 2 ^ 32
      · rw [if_pos hsmall] at hsegs
        rw [hsegs, Nat.add_zero] at hfile
        have hdvd := (pred_file io.segmentsPerFile (by omega) (by omega)).not.mp hfile
        exact hkept ⟨hsmall, Nat.mod_eq_zero_of_dvd (not_not.mp hdvd)⟩
      · rw [if_neg hsmall] at hsegs
        have hsame : u32Sub (first + nseg) 1 = first := by
          unfold u32Sub
          omega
        rw [hsame] at hfile
        exact hfile rfl
  rw [if_neg hpassed]

/-- The bytes of a window, if they are at the places of their addresses, are in one file. -/
theorem one_file_of_run {pos : Nat} (hlen : r.length ≠ 0)
    (heq : FileRun.bytes ⟨(io.placeOf (io.address r)).1, pos, r.length⟩ =
      io.placesFrom (io.address r) r.length) :
    pos = (io.placeOf (io.address r)).2 ∧ r.length ≤ senIoFileSize := by
  have hruns : runsBytes [⟨(io.placeOf (io.address r)).1, pos, r.length⟩] =
      io.placesFrom (io.address r) r.length := by
    rw [← heq]
    exact List.append_nil _
  obtain ⟨-, hpos⟩ := file_of_run hruns (show 0 < r.length by omega) (by omega)
  obtain ⟨hfile, -⟩ := file_of_run hruns (show r.length - 1 < r.length by omega) (by omega)
  refine ⟨hpos.symm, ?_⟩
  change _ = io.address r / senIoFileSize at hfile
  have hdiv := Nat.div_add_mod (io.address r) senIoFileSize
  have hdiv' := Nat.div_add_mod (io.address r + (r.length - 1)) senIoFileSize
  have hlt := Nat.mod_lt (io.address r + (r.length - 1))
    (Nat.pos_of_ne_zero (by decide : senIoFileSize ≠ 0))
  rw [hfile] at hdiv'
  omega

/-- A range in one file is a run. -/
theorem run_of_one_file
    (hone : io.address r / senIoFileSize = (io.address r + r.length - 1) / senIoFileSize) :
    FileRun.bytes ⟨(io.placeOf (io.address r)).1, (io.placeOf (io.address r)).2, r.length⟩ =
      io.placesFrom (io.address r) r.length := by
  have hdiv := Nat.div_add_mod (io.address r) senIoFileSize
  have hdiv' := Nat.div_add_mod (io.address r + r.length - 1) senIoFileSize
  have hlt := Nat.mod_lt (io.address r + r.length - 1)
    (Nat.pos_of_ne_zero (by decide : senIoFileSize ≠ 0))
  have hlt' := Nat.mod_lt (io.address r) (Nat.pos_of_ne_zero (by decide : senIoFileSize ≠ 0))
  have hle := io.shift_le (io.address r / senIoFileSize)
  have hstart : io.baseSeg * io.segmentSize ≤ io.address r := Nat.le_add_right _ _
  have hshift : io.shift (io.address r / senIoFileSize) ≤ io.address r % senIoFileSize := by
    by_cases hzero : io.address r / senIoFileSize = 0
    · rw [hzero] at hdiv hle ⊢
      omega
    · simp [shift, hzero]
  rw [← hone] at hdiv'
  symm
  apply placesFrom_eq_run (by omega)
  dsimp only [placeOf]
  omega

variable {os : Mapper}

/-- Every access finds the bytes of a range at the places of their addresses. -/
def Agrees (io : SenIo) (os : Mapper) (r : Range) : Prop :=
  ∀ a bs, io.bytes os r a = some bs → bs = io.placesFrom (io.address r) r.length

theorem InPlace.agrees (h : io.Laid) (hr : io.Inside r) (hin : io.InPlace os r) :
    io.Agrees os r := by
  intro a bs hbs
  cases a with
  | writeJa =>
      simp only [bytes, Option.ite_none_right_eq_some, Option.some.injEq] at hbs
      obtain ⟨hlen, rfl⟩ := hbs
      exact writeJa_places h hr hlen ((hin.value hlen).imp_right And.right)
  | readJa =>
      simp only [bytes, Option.ite_none_right_eq_some, Option.some.injEq] at hbs
      obtain ⟨hlen, rfl⟩ := hbs
      refine readJa_places h hr hlen ((hin.value hlen).imp_right fun hrest => ?_)
      exact ⟨hrest.2.1, (Nat.le_add_right _ _).trans hrest.2.2⟩
  | writeJaEhead =>
      simp only [bytes, Option.ite_none_right_eq_some, Option.some.injEq] at hbs
      obtain ⟨hlen, rfl⟩ := hbs
      exact writeJaEhead_places h hr hlen
        ((hin.value (by omega)).resolve_right fun hrest => by omega)
  | winMap mode =>
      obtain ⟨run, hrun, rfl⟩ := Option.map_eq_some_iff.mp hbs
      by_cases hlen : r.length = 0
      · simp [winMap, hlen] at hrun
      · by_cases hover : r.offset % io.segmentSize + r.length + io.segmentSize ≤ 2 ^ 32
        · rw [winMap_eq h hr hlen os mode hover] at hrun
          split at hrun
          · cases hrun
          · rename_i hone
            rw [not_not] at hone
            cases mode with
            | rdonly => exact Option.some.inj hrun ▸ run_of_one_file hone
            | wronly => exact Option.some.inj hrun ▸ run_of_one_file hone
            | rdwr =>
                obtain ⟨p, hp, rfl⟩ := Option.map_eq_some_iff.mp hrun
                by_cases hoffset : r.offset % io.segmentSize = 0
                · rw [hoffset, Nat.add_zero]
                  exact run_of_one_file hone
                · exact absurd (hin.mapped hlen hoffset hone) (by rw [← windowSegs]; simp_all
                      [placeOf])
        · obtain ⟨hsmall, hfirst⟩ := hin.window.resolve_left hover
          rw [winMap_eq_none_of_overflow h hr os mode hlen hover hsmall hfirst] at hrun
          cases hrun
  | segMap =>
      rw [← Option.some.inj hbs]
      exact segBytes_eq h hr

theorem Agrees.inPlace (h : io.Laid) (hr : io.Inside r) (hall : io.Agrees os r) :
    io.InPlace os r := by
  have hsize : io.segmentSize ≤ 2 ^ 30 := Nat.le_of_dvd (by decide) h.dvd
  have hfile : senIoFileSize = 2 ^ 30 := rfl
  have hoffset := Nat.mod_lt r.offset h.pos
  refine ⟨fun hlen => ?_, ?_, fun hlen hne hone => ?_⟩
  · have hread := fits_of_readJa h hr hlen (hall .readJa _ (if_pos hlen))
    have hwrite := hall .writeJa _ (if_pos hlen)
    refine or_iff_not_imp_left.mpr fun hcross => ?_
    obtain ⟨hshift, hpos⟩ := hread.resolve_left hcross
    refine ⟨?_, hshift, ?_⟩
    · by_contra hshort
      have hlen' : r.length = 8 := by omega
      exact hcross (fits_of_writeJaEhead h hr hlen' hpos (hall .writeJaEhead _ (if_pos hlen')))
    · split
      · exact header_fits_of_writeJa h hr (by omega) hpos hwrite
      · exact hpos
  · refine or_iff_not_imp_left.mpr fun hover => ?_
    by_contra hkept
    have hrun := winMap_rdonly_of_overflow h hr os hover hkept
    have heq := hall (.winMap .rdonly) _ (congrArg (Option.map FileRun.bytes) hrun)
    have hlen := (one_file_of_run (by omega) heq).2
    omega
  · by_contra hmap
    obtain ⟨p, hp⟩ := Option.ne_none_iff_exists'.mp hmap
    have hshort : r.length ≤ senIoFileSize := by
      have hdiv := Nat.div_add_mod (io.address r) senIoFileSize
      have hdiv' := Nat.div_add_mod (io.address r + r.length - 1) senIoFileSize
      have hlt := Nat.mod_lt (io.address r + r.length - 1)
        (Nat.pos_of_ne_zero (by decide : senIoFileSize ≠ 0))
      rw [← hone] at hdiv'
      omega
    have hrun := winMap_eq h hr hlen os .rdwr (by omega)
    rw [if_neg (not_not.mpr hone)] at hrun
    dsimp only [placeOf] at hrun
    rw [windowSegs, hp] at hrun
    have heq := hall (.winMap .rdwr) _ (congrArg (Option.map FileRun.bytes) hrun)
    have hpos := (one_file_of_run hlen heq).1
    dsimp only [placeOf] at hpos
    omega

theorem genPathname_eq_none {fno : Nat} : genPathname fno = none ↔ fno = 0 := by
  unfold genPathname
  split_ifs with h <;> simp [h]

theorem address_room (io : SenIo) (r : Range) (k : Nat) :
    io.baseSeg * io.segmentSize ≤ io.address r + k :=
  (Nat.le_add_right _ _).trans (Nat.le_add_right _ k)

/-- Two addresses of segments have one place, by the names of the files, where they are the same, or
both behind the first file and a multiple of 4096 files apart. -/
theorem named_placeOf_iff {a b : Nat} (ha : io.baseSeg * io.segmentSize ≤ a)
    (hb : io.baseSeg * io.segmentSize ≤ b) :
    named (io.placeOf a) = named (io.placeOf b) ↔ a = b ∨ senIoFileSize ≤ a ∧
      senIoFileSize ≤ b ∧ a % (senIoFileSize * 2 ^ 12) = b % (senIoFileSize * 2 ^ 12) := by
  have hfile : 0 < senIoFileSize := by decide
  have hbehind : ∀ {x : Nat}, x / senIoFileSize ≠ 0 ↔ senIoFileSize ≤ x := fun {x} => by
    rw [ne_eq, Nat.div_eq_zero_iff_lt hfile, not_lt]
  have hplace : ∀ {x : Nat}, x / senIoFileSize ≠ 0 → named (io.placeOf x) =
      (some (x / senIoFileSize % 2 ^ 12), x % senIoFileSize) := fun {x} hx => by
    rw [named, placeOf, genPathname, if_neg hx, shift, if_neg hx, Nat.sub_zero]
  constructor
  · intro h
    obtain ⟨hname, hpos⟩ : genPathname (a / senIoFileSize) = genPathname (b / senIoFileSize) ∧
      (io.placeOf a).2 = (io.placeOf b).2 := Prod.mk.inj h
    by_cases hzero : a / senIoFileSize = 0
    · rw [genPathname_eq_none.mpr hzero] at hname
      refine .inl (placeOf_inj ha hb (Prod.ext ?_ hpos))
      exact hzero.trans (genPathname_eq_none.mp hname.symm).symm
    · have hne : b / senIoFileSize ≠ 0 := fun hb0 =>
        hzero (genPathname_eq_none.mp (hname.trans (genPathname_eq_none.mpr hb0)))
      rw [hplace hzero, hplace hne] at h
      obtain ⟨hnumber, hpos⟩ := Prod.mk.inj h
      refine .inr ⟨hbehind.mp hzero, hbehind.mp hne, ?_⟩
      rw [Nat.mod_mul, Nat.mod_mul, hpos, Option.some.inj hnumber]
  · rintro (rfl | ⟨hla, hlb, hmod⟩)
    · rfl
    · rw [Nat.mod_mul, Nat.mod_mul] at hmod
      have hma := Nat.mod_lt a hfile
      have hmb := Nat.mod_lt b hfile
      have hpos : a % senIoFileSize = b % senIoFileSize := by
        have := congrArg (· % senIoFileSize) hmod
        simpa [Nat.add_mul_mod_self_left] using this
      have hnumber : a / senIoFileSize % 2 ^ 12 = b / senIoFileSize % 2 ^ 12 := by
        rw [hpos] at hmod
        exact Nat.eq_of_mul_eq_mul_left hfile (Nat.add_left_cancel hmod)
      rw [hplace (hbehind.mpr hla), hplace (hbehind.mpr hlb), hpos, hnumber]

/-- What the accesses to two ranges make sure of together. -/
theorem placesOk_of_agrees (h : io.Laid) (hr₁ : io.Inside r₁) (hr₂ : io.Inside r₂)
    (h₁ : io.Agrees os r₁) (h₂ : io.Agrees os r₂) (hunwrapped : io.Unwrapped r₁ r₂) :
    io.PlacesOk os r₁ r₂ := by
  have hall : ∀ r, r = r₁ ∨ r = r₂ → ∀ a bs, io.bytes os r a = some bs →
      bs = io.placesFrom (io.address r) r.length := by
    rintro r (rfl | rfl)
    · exact h₁
    · exact h₂
  have hinside : ∀ r, r = r₁ ∨ r = r₂ → io.Inside r := by
    rintro r (rfl | rfl)
    · exact hr₁
    · exact hr₂
  refine ⟨fun r hr a bs hbs => ?_, fun hapart a₁ a₂ bs₁ bs₂ hbs₁ hbs₂ => ?_,
    fun r hr a bs hbs p hp hfirst => ?_⟩
  · rw [hall r hr a bs hbs, segBytes_eq h (hinside r hr)]
  · rw [h₁ a₁ bs₁ hbs₁, h₂ a₂ bs₂ hbs₂]
    intro p hp₁ hp₂
    obtain ⟨p₁, hmem₁, rfl⟩ := List.mem_map.mp hp₁
    obtain ⟨p₂, hmem₂, heq⟩ := List.mem_map.mp hp₂
    obtain ⟨k₁, hk₁, rfl⟩ := List.mem_map.mp hmem₁
    obtain ⟨k₂, hk₂, rfl⟩ := List.mem_map.mp hmem₂
    rw [List.mem_range] at hk₁ hk₂
    have hsame : io.address r₁ + k₁ = io.address r₂ + k₂ := by
      rcases (named_placeOf_iff (address_room io r₂ k₂) (address_room io r₁ k₁)).mp heq with
        hsame | ⟨hlow₂, hlow₁, hmod⟩
      · exact hsame.symm
      · exact hunwrapped k₁ hk₁ k₂ hk₂ hlow₁ hlow₂ hmod.symm
    unfold address at hsame
    rcases hapart with hle | hle <;> omega
  · rw [hall r hr a bs hbs] at hp
    obtain ⟨k, -, rfl⟩ := List.mem_map.mp hp
    exact h.base_le_placeOf (address_room io r k) (genPathname_eq_none.mp hfirst)

/-- Ranges with a common address are too short to reach 4096 files further on. -/
theorem unwrapped_of_not_apart (hr₁ : io.Inside r₁) (hr₂ : io.Inside r₂)
    (hcommon : ¬ io.Apart r₁ r₂) : io.Unwrapped r₁ r₂ := by
  intro i hi j hj _ _ hmod
  obtain ⟨hlow, hhigh⟩ := not_or.mp hcommon
  have hlen₁ := hr₁.length_lt
  have hlen₂ := hr₂.length_lt
  have hsize : senIoFileSize * 2 ^ 12 = 2 ^ 42 := by decide
  unfold address at hmod ⊢
  rw [hsize] at hmod
  omega

/-- Ranges that are kept apart are not wrapped. -/
theorem PlacesOk.unwrapped (h : io.Laid) (hr₁ : io.Inside r₁) (hr₂ : io.Inside r₂)
    (hok : io.PlacesOk os r₁ r₂) : io.Unwrapped r₁ r₂ := by
  by_cases hapart : io.Apart r₁ r₂
  · intro i hi j hj hlow₁ hlow₂ hmod
    have hdisjoint := hok.apart hapart .segMap .segMap _ _ rfl rfl
    rw [segBytes_eq h hr₁, segBytes_eq h hr₂] at hdisjoint
    have hmem : ∀ (r : Range) (k : Nat), k < r.length → named (io.placeOf (io.address r + k)) ∈
        (io.placesFrom (io.address r) r.length).map named := fun r k hk =>
      List.mem_map_of_mem (List.mem_map.mpr ⟨k, List.mem_range.mpr hk, rfl⟩)
    refine absurd (hmem r₂ j hj) (hdisjoint ?_)
    rw [← (named_placeOf_iff (address_room io r₁ i) (address_room io r₂ j)).mpr
      (.inr ⟨hlow₁, hlow₂, hmod⟩)]
    exact hmem r₁ i hi
  · exact unwrapped_of_not_apart hr₁ hr₂ hapart

theorem placesOk_iff (h : io.Laid) (hr₁ : io.Inside r₁) (hr₂ : io.Inside r₂) :
    io.PlacesOk os r₁ r₂ ↔ io.InPlace os r₁ ∧ io.InPlace os r₂ ∧ io.Unwrapped r₁ r₂ := by
  constructor
  · intro hok
    exact ⟨Agrees.inPlace h hr₁ fun a bs hbs =>
        (hok.same r₁ (.inl rfl) a bs hbs).trans (segBytes_eq h hr₁),
      Agrees.inPlace h hr₂ fun a bs hbs =>
        (hok.same r₂ (.inr rfl) a bs hbs).trans (segBytes_eq h hr₂), hok.unwrapped h hr₁ hr₂⟩
  · rintro ⟨h₁, h₂, hunwrapped⟩
    exact placesOk_of_agrees h hr₁ hr₂ (h₁.agrees h hr₁) (h₂.agrees h hr₂) hunwrapped

end

end SenIo

end Senna.Io
