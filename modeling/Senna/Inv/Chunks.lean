/-
# Runs of chunks

The inverted index keeps the chunks of its posting lists in a segmented file whose segments are
the chunks. `chunk_new` looks for the first run of free chunks that is long enough, and begins a
run anew where the next chunk is in another file, so that a run can be mapped as one window.
Together with the places of the segments this is what keeps different parts of the files apart.
-/

import Senna.Inv.Placement
import Senna.Io.SegPlaces

namespace Senna.Inv

open Senna.Io Senna.Io.SenIo

/-- `SEN_INV_CHUNK_SIZE` -/
def senInvChunkSize : Nat := 0x40000

/-- `N_CHUNKS_PER_FILE` -/
def nChunksPerFile : Nat := senIoFileSize / senInvChunkSize

/-- `MAX_CHUNK_RATIO` -/
def maxChunkRatio : Nat := 64

/-- What `chunk_new` reads and writes of the header of an inverted index. -/
structure ChunkHeader where
  initialNSegments : Nat
  chunks : Nat → Bool

/-- `while (j < i) { inv->header->chunks[++j] = 1; }` -/
def ChunkHeader.mark (h : ChunkHeader) (i : Nat) (j : Int) : ChunkHeader :=
  { h with chunks := fun k => if j < k ∧ k ≤ i then true else h.chunks k }

/-- The loop of `chunk_new`, with the number of rounds that are left. -/
def chunkLoop (h : ChunkHeader) (n baseSeg : Nat) : Nat → Nat → Int → Option (Nat × ChunkHeader)
  | 0, _, _ => none
  | left + 1, i, j =>
      if h.chunks i then chunkLoop h n baseSeg left (i + 1) i
      else if ((i : Int) - j) % 2 ^ 32 = n then some ((j + 1).toNat, h.mark i j)
      else
        chunkLoop h n baseSeg left (i + 1)
          (if (i + baseSeg) % 2 ^ 32 / nChunksPerFile ≠
              (i + baseSeg + 1) % 2 ^ 32 / nChunksPerFile then i else j)

/-- The number of chunks of a size. -/
def chunkCount (size : Nat) : Nat :=
  let n := size / senInvChunkSize
  if n * senInvChunkSize % 2 ^ 32 < size then n + 1 else n

/-- `chunk_new`: the first chunk and the new header; `none` for `sen_memory_exhausted`. -/
def chunkNew (h : ChunkHeader) (baseSeg size : Nat) : Option (Nat × ChunkHeader) :=
  chunkLoop h (chunkCount size) baseSeg (h.initialNSegments * maxChunkRatio) 0 (-1)

section

variable {h h' : ChunkHeader} {n baseSeg start : Nat}

/-- The chunks behind `j` up to `i` are free and in one file. -/
def FreeRun (h : ChunkHeader) (baseSeg i : Nat) (j : Int) : Prop :=
  -1 ≤ j ∧ j < i ∧ ∀ k : Nat, j < k → k < i → h.chunks k = false ∧
    (k + baseSeg) / nChunksPerFile = (k + baseSeg + 1) / nChunksPerFile

theorem FreeRun.file_eq {i : Nat} {j : Int} (hrun : FreeRun h baseSeg i j) {k : Nat} (hj : j < k)
    (hk : k ≤ i) : (k + baseSeg) / nChunksPerFile = (i + baseSeg) / nChunksPerFile := by
  induction i, hk using Nat.le_induction with
  | base => rfl
  | succ i hk ih =>
      obtain ⟨hlow, -, hall⟩ := hrun
      rw [ih ⟨hlow, by omega, fun k' hj' hk' => hall k' hj' (by omega)⟩,
        (hall i (by omega) (by omega)).2]
      congr 1
      omega

/-- A run that is found is free, is long enough and lies in one file. -/
theorem chunkLoop_spec {left i : Nat} {j : Int} (hrun : FreeRun h baseSeg i j)
    (hfits : i + left + baseSeg < 2 ^ 32)
    (heq : chunkLoop h n baseSeg left i j = some (start, h')) :
    0 < n ∧ start + n ≤ i + left ∧ h' = h.mark (start + n - 1) (start - 1) ∧
      (∀ k, start ≤ k → k < start + n → h.chunks k = false) ∧
      (start + baseSeg) / nChunksPerFile = (start + n - 1 + baseSeg) / nChunksPerFile := by
  induction left generalizing i j with
  | zero => simp [chunkLoop] at heq
  | succ left ih =>
      obtain ⟨hlow, hji, hall⟩ := hrun
      rw [chunkLoop] at heq
      split at heq
      · obtain ⟨hn, hend, hrest⟩ := ih ⟨by omega, by omega, fun k hj hk => by omega⟩ (by omega) heq
        exact ⟨hn, by omega, hrest⟩
      · rename_i hfree
        rw [Bool.not_eq_true] at hfree
        split at heq
        · rename_i hcount
          obtain ⟨rfl, rfl⟩ := Prod.mk.inj (Option.some.inj heq)
          have hlast : (j + 1).toNat + n - 1 = i := by omega
          have hfirst : (((j + 1).toNat : Nat) : Int) - 1 = j := by omega
          have hrun' : FreeRun h baseSeg i j := ⟨hlow, hji, hall⟩
          refine ⟨by omega, by omega, by rw [hlast, hfirst], fun k hk hk' => ?_, ?_⟩
          · by_cases hki : k = i
            · rw [hki, hfree]
            · exact (hall k (by omega) (by omega)).1
          · rw [hlast]
            exact hrun'.file_eq (by omega) (by omega)
        · rw [Nat.mod_eq_of_lt (show i + baseSeg < 2 ^ 32 by omega),
            Nat.mod_eq_of_lt (show i + baseSeg + 1 < 2 ^ 32 by omega)] at heq
          have hnext : FreeRun h baseSeg (i + 1)
              (if (i + baseSeg) / nChunksPerFile ≠ (i + baseSeg + 1) / nChunksPerFile then i
                else j) := by
            refine ⟨by split <;> omega, by split <;> omega, fun k hj hk => ?_⟩
            split at hj
            · omega
            · rename_i hsame
              by_cases hki : k = i
              · rw [hki]
                exact ⟨hfree, not_not.mp hsame⟩
              · exact hall k hj (by omega)
          obtain ⟨hn, hend, hrest⟩ := ih hnext (by omega) heq
          exact ⟨hn, by omega, hrest⟩

/-- The chunks of a run hold its bytes, and no chunk is too many. -/
theorem chunkCount_eq {size : Nat} (hsize : size < 2 ^ 32) :
    chunkCount size = (size + senInvChunkSize - 1) / senInvChunkSize := by
  unfold chunkCount senInvChunkSize
  dsimp only
  split <;> omega

/-- The file of the chunks, as `sen_inv_create` creates it. -/
def chunkIo (pagesize : Nat) (h : ChunkHeader) : SenIo :=
  senIoCreate pagesize 0 senInvChunkSize (h.initialNSegments * maxChunkRatio)

/-- A run of chunks that was found is in one file, and a window on it is accepted. -/
def ChunkRunsOk : Prop :=
  ∀ (pagesize size start : Nat) (h h' : ChunkHeader), 0 < pagesize → pagesize ≤ 2 ^ 30 →
    h.initialNSegments ≤ senInvMaxSegment → size < 2 ^ 32 →
    chunkNew h (chunkIo pagesize h).baseSeg size = some (start, h') →
    (start + (chunkIo pagesize h).baseSeg) / nChunksPerFile =
        (start + chunkCount size - 1 + (chunkIo pagesize h).baseSeg) / nChunksPerFile ∧
      ∀ (os : Mapper) (mode : RwMode), (∀ fno pos len, (os.mmap fno pos len).isSome) →
        ((chunkIo pagesize h).winMap os mode start 0 size).isSome

theorem chunkRunsOk : ChunkRunsOk := by
  intro pagesize size start h h' hpage hpagele hmax hsize hnew
  have hlaid : (chunkIo pagesize h).Laid := by
    refine laid_senIoCreate hpage ⟨4096, rfl⟩ ?_
    unfold ioHeaderSize maxChunkRatio senInvMaxSegment at *
    omega
  obtain ⟨io, hio⟩ : ∃ io, io = chunkIo pagesize h := ⟨_, rfl⟩
  have hseg : io.segmentSize = senInvChunkSize := by rw [hio]; rfl
  have hsegs : io.maxSegment = h.initialNSegments * maxChunkRatio := by rw [hio]; rfl
  rw [← hio] at hnew hlaid ⊢
  have hfit := hlaid.segs_fit
  have hrun : FreeRun h io.baseSeg 0 (-1) := ⟨le_rfl, by omega, fun k hj hk => by omega⟩
  obtain ⟨hn, hend, -, -, hfile⟩ := chunkLoop_spec hrun (by omega) hnew
  refine ⟨hfile, fun os mode hmmap => ?_⟩
  have hcount := chunkCount_eq hsize
  have hper : io.segmentsPerFile = nChunksPerFile := by
    rw [SenIo.segmentsPerFile, hseg]
    rfl
  have hfew : chunkCount size ≤ 4096 := by
    unfold nChunksPerFile senIoFileSize senInvChunkSize at hfile
    omega
  obtain ⟨r, hr⟩ : ∃ r : SenIo.Range, r = ⟨start, 0, size⟩ := ⟨_, rfl⟩
  have hstart : io.start r = start * senInvChunkSize := by
    simp only [SenIo.start, hr, hseg, Nat.add_zero]
  have hinside : io.Inside r := by
    refine ⟨by rw [hr]; exact Nat.two_pow_pos 32, by rw [hr]; exact hsize, ?_⟩
    rw [hstart, hseg, hsegs, hr]
    unfold senInvChunkSize at hcount ⊢
    dsimp only
    omega
  have hlen : r.length ≠ 0 := by
    rw [hr]
    unfold senInvChunkSize at hcount
    dsimp only
    omega
  have hwin : io.windowSegs r = chunkCount size := by
    rw [windowSegs, hseg, hr, hcount, Nat.zero_mod, Nat.zero_add]
  have hfirst : io.address r / io.segmentSize = start + io.baseSeg := by
    rw [address_div hlaid, hr, Nat.zero_div, Nat.add_zero]
  have hone : io.address r / senIoFileSize = (io.address r + r.length - 1) / senIoFileSize := by
    rw [← div_div_perFile hlaid, ← div_div_perFile hlaid, ← (windowSegs_last hlaid hlen).2, hwin,
      hfirst, hper, hfile]
    congr 1
    omega
  have heq := winMap_eq hlaid hinside hlen os mode (by
    rw [hseg, hr, Nat.zero_mod]
    unfold senInvChunkSize at hcount ⊢
    dsimp only
    omega)
  rw [if_neg (not_not.mpr hone), hr] at heq
  rw [heq]
  cases mode with
  | rdonly => rfl
  | wronly => rfl
  | rdwr =>
      dsimp only
      rw [Option.isSome_map]
      exact hmmap _ _ _

/-- **Distinct places of a segmented file never alias as long as the ranges are in place, and not a
multiple of 4096 files apart.** -/
theorem placesOk_chunkRunsOk_iff {pagesize headerSize segmentSize maxSegment : Nat} {os : Mapper}
    {r₁ r₂ : SenIo.Range} (hpage : 0 < pagesize) (hdvd : segmentSize ∣ senIoFileSize)
    (hfits : ioHeaderSize + maxSegment * 4 + headerSize + pagesize ≤ 2 ^ 31)
    (hr₁ : (senIoCreate pagesize headerSize segmentSize maxSegment).Inside r₁)
    (hr₂ : (senIoCreate pagesize headerSize segmentSize maxSegment).Inside r₂) :
    ((senIoCreate pagesize headerSize segmentSize maxSegment).PlacesOk os r₁ r₂ ∧ ChunkRunsOk) ↔
      (senIoCreate pagesize headerSize segmentSize maxSegment).InPlace os r₁ ∧
        (senIoCreate pagesize headerSize segmentSize maxSegment).InPlace os r₂ ∧
        (senIoCreate pagesize headerSize segmentSize maxSegment).Unwrapped r₁ r₂ := by
  rw [and_iff_left chunkRunsOk]
  exact placesOk_iff (laid_senIoCreate hpage hdvd hfits) hr₁ hr₂

end

/-- A file of the inverted index for 10000 chunks. -/
def exampleIo : SenIo := senIoCreate 4096 0 senInvChunkSize 10000

/-- Memory is mapped wherever it is asked for. -/
def exampleMapper : Mapper := ⟨fun _ => true, fun fno pos _ => some (fno + pos)⟩

theorem exampleIo_laid : exampleIo.Laid := by
  exact laid_senIoCreate (by decide) ⟨4096, rfl⟩ (by decide)

theorem placesOk_chunkRunsOk_iff_example :
    (exampleIo.PlacesOk exampleMapper ⟨0, 0, 32⟩ ⟨1, 0, 8⟩ ∧ ChunkRunsOk) ↔
      exampleIo.InPlace exampleMapper ⟨0, 0, 32⟩ ∧ exampleIo.InPlace exampleMapper ⟨1, 0, 8⟩ ∧
        exampleIo.Unwrapped ⟨0, 0, 32⟩ ⟨1, 0, 8⟩ :=
  placesOk_chunkRunsOk_iff (by decide) ⟨4096, rfl⟩ (by decide)
    ⟨by decide, by decide, by decide⟩ ⟨by decide, by decide, by decide⟩

/-- More than 4096 files, with one segment in each. -/
def wideIo : SenIo := senIoCreate 4096 0 senIoFileSize 5000

theorem wideIo_laid : wideIo.Laid := laid_senIoCreate (by decide) ⟨1, rfl⟩ (by decide)

/-- Three ranges whose bytes are looked for in different places: a value that begins 16 bytes before
the end of the last segment of the first file, a header that is cut by the end of the second file,
and a window for reading and writing that does not begin at a segment; and two ranges in files of
one name. -/
theorem placesOk_chunkRunsOk_fails :
    ¬ (exampleIo.PlacesOk exampleMapper ⟨4094, 0x3fff0, 32⟩ ⟨4094, 0x3fff0, 32⟩ ∧ ChunkRunsOk) ∧
      ¬ (exampleIo.PlacesOk exampleMapper ⟨8190, 0x3fffc, 8⟩ ⟨8190, 0x3fffc, 8⟩ ∧ ChunkRunsOk) ∧
      ¬ (exampleIo.PlacesOk exampleMapper ⟨0, 4096, 8⟩ ⟨0, 4096, 8⟩ ∧ ChunkRunsOk) ∧
      ¬ (wideIo.PlacesOk exampleMapper ⟨1, 0, 8⟩ ⟨4097, 0, 8⟩ ∧ ChunkRunsOk) := by
  have hbad : ∀ r, exampleIo.Inside r → ¬ exampleIo.InPlace exampleMapper r →
      ¬ (exampleIo.PlacesOk exampleMapper r r ∧ ChunkRunsOk) := fun r hr hnot hok =>
    hnot ((placesOk_iff exampleIo_laid hr hr).mp hok.1).1
  refine ⟨hbad _ ⟨by decide, by decide, by decide⟩ fun h => ?_,
    hbad _ ⟨by decide, by decide, by decide⟩ fun h => ?_,
    hbad _ ⟨by decide, by decide, by decide⟩ fun h => ?_, fun hok => ?_⟩
  · have hvalue := h.value (by decide)
    revert hvalue
    decide
  · have hvalue := h.value (by decide)
    revert hvalue
    decide
  · have hmapped := h.mapped (by decide) (by decide) (by decide)
    revert hmapped
    decide
  · have hunwrapped := (hok.1).unwrapped wideIo_laid ⟨by decide, by decide, by decide⟩
      ⟨by decide, by decide, by decide⟩
    have hsame := hunwrapped 0 (by decide) 0 (by decide) (by decide) (by decide) (by decide)
    revert hsame
    decide

end Senna.Inv
