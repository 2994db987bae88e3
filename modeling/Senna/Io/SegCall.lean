/-
# One reference to a segment

`sen_io_seg_ref` and the macro `SEN_IO_SEG_REF` pin a segment: they raise its counter and
map it when it is not mapped. Here one call runs alone, with every way it can end. The two differ
where the segment cannot be mapped: the macro lowers the counter again, the function keeps it.
A segment that is not mapped while its counter is not zero is one that somebody is about to map;
nobody maps or expires it any more once the pin is left behind.

What the system answers, and where it maps a file, is a parameter.
-/

import Senna.Io.SegRef

namespace Senna.Io

/-- `SEN_IO_MAX_RETRY` -/
def senIoMaxRetry : Nat := 0x10000

/-- `SEN_IO_FILE_SIZE` -/
def senIoFileSize : Nat := 1073741824

/-- `sen_io_mapinfo` with its `count`. -/
structure SegMapInfo extends SegInfo where
  count : Nat

/-- What a reference reads and writes of `sen_io` and its header. -/
structure SenIo where
  maxSegment : Nat
  segmentSize : Nat
  currSize : Nat
  base : Nat
  baseSeg : Nat
  v08p : Bool
  opened : Nat → Bool
  maps : Nat → SegMapInfo
  nmaps : Nat
  count : Nat

/-- What the system answers: whether `sen_open` opens a file, and where `SEN_MMAP` maps a part of
it, from its number, the position and the size. -/
structure Mapper where
  opens : Nat → Bool
  mmap : Nat → Nat → Nat → Option Nat

namespace SenIo

variable (io : SenIo) (segno : Nat)

/-- `info`, changed. -/
def setInfo (info : SegInfo) : SenIo :=
  { io with maps := Function.update io.maps segno { io.maps segno with toSegInfo := info } }

/-- `info->count = io->count++` -/
def touch : SenIo :=
  { io with
    maps := Function.update io.maps segno { io.maps segno with count := io.count }
    count := (io.count + 1) % 2 ^ 32 }

/-- The file that holds a segment, and the position there. -/
def place : Nat × Nat :=
  let segmentsPerFile := senIoFileSize / io.segmentSize
  let bseg := (segno + io.baseSeg) % 2 ^ 32
  let fno := bseg / segmentsPerFile
  let base := if fno ≠ 0 then 0 else u32Sub io.base (io.baseSeg * io.segmentSize % 2 ^ 32)
  (fno, (bseg % segmentsPerFile * io.segmentSize + base) % 2 ^ 32)

/-- `SEN_MMAP` for a segment whose file is open, and the accounting behind it. -/
def mmap (os : Mapper) : SenIo :=
  let map := os.mmap (io.place segno).1 (io.place segno).2 io.segmentSize
  let io := io.setInfo segno { (io.maps segno).toSegInfo with map := map }
  if map.isSome then
    let tail := (io.base + (segno + 1) * io.segmentSize) % 2 ^ 32
    { io with
      nmaps := (io.nmaps + 1) % 2 ^ 32
      currSize := if !io.v08p && tail > io.currSize then tail else io.currSize }
  else io

/-- `SEG_MAP` -/
def segMap (os : Mapper) : SenIo :=
  let fno := (io.place segno).1
  if io.opened fno then io.mmap segno os
  else if os.opens fno then
    { io with opened := Function.update io.opened fno true }.mmap segno os
  else io

/-- The counter of a segment. -/
def nref : Nat := (io.maps segno).nref

/-- The address a segment is mapped at. -/
def map : Option Nat := (io.maps segno).map

/-- `SEN_ATOMIC_ADD_EX(pnref, 1, nref)` -/
def addRef : SenIo := io.setInfo segno ((io.maps segno).toSegInfo.add 1)

/-- `SEN_ATOMIC_ADD_EX(pnref, -1, nref)` -/
def subRef : SenIo := io.setInfo segno ((io.maps segno).toSegInfo.sub 1)

end SenIo

/-- The loop of a reference, with what is done to map the segment and when the last attempt is
turned away; `busy` for `nref >= SEN_IO_MAX_REF`. The numbers count the attempts that are left. -/
def segRefLoop (mapIt : SenIo → SenIo) (giveUp : Bool → SenIo → SenIo) (segno : Nat) :
    Nat → SenIo → Option Nat × SenIo
  | left, io =>
      let nref := io.nref segno
      let io := io.addRef segno
      let done (io : SenIo) := (io.map segno, io.touch segno)
      if nref ≥ senIoMaxRef then
        match left with
        | 0 => (none, giveUp true (io.subRef segno))
        | left + 1 => segRefLoop mapIt giveUp segno left (io.subRef segno)
      else if io.map segno = none then
        if nref ≠ 0 then
          match left with
          | 0 => (none, giveUp false (io.subRef segno))
          | left + 1 => segRefLoop mapIt giveUp segno left (io.subRef segno)
        else done (mapIt io)
      else done io

/-- `sen_io_seg_ref` -/
def senIoSegRef (os : Mapper) (io : SenIo) (segno : Nat) : Option Nat × SenIo :=
  if segno ≥ io.maxSegment then (none, io)
  else
    segRefLoop (fun io => io.segMap segno os) (fun _ io => io) segno senIoMaxRetry io

/-- The macro `SEN_IO_SEG_REF`, with `addr` and the file behind it; `addr` is `NULL` before. -/
def senIoSegRefMacro (os : Mapper) (io : SenIo) (segno : Nat) : Option Nat × SenIo :=
  segRefLoop
    (fun io =>
      let io := io.segMap segno os
      if io.map segno = none then io.subRef segno else io)
    (fun busy io =>
      -- The reset is forced only where the counter stayed out of range.
      (if busy then io.setInfo segno { (io.maps segno).toSegInfo with nref := 0 } else io).touch
        segno)
    segno senIoMaxRetry io

/-- The loop of `sen_io_seg_expire`. Both of its limits end it with the same error, so the numbers
count the attempts that are left of the smaller one. -/
def segExpireLoop (segno : Nat) : Nat → SenIo → SenRc × SenIo
  | left, io =>
      let nref := io.nref segno
      let io := io.addRef segno
      if nref ≠ 0 then
        match left with
        | 0 => (.abnormalError, io.subRef segno)
        | left + 1 => segExpireLoop segno left (io.subRef segno)
      else
        let nref := io.nref segno
        let io := io.setInfo segno ((io.maps segno).toSegInfo.add senIoMaxRef)
        if nref > 1 then
          let io := io.setInfo segno ((io.maps segno).toSegInfo.sub (senIoMaxRef + 1))
          match left with
          | 0 => (.abnormalError, io)
          | left + 1 => segExpireLoop segno left io
        else
          let io := io.setInfo segno { (io.maps segno).toSegInfo with map := none }
          let io := io.setInfo segno ((io.maps segno).toSegInfo.sub (senIoMaxRef + 1))
          (.success, { io with nmaps := u32Sub io.nmaps 1 })

/-- `sen_io_seg_expire` -/
def senIoSegExpire (io : SenIo) (segno nretry : Nat) : SenRc × SenIo :=
  if segno ≥ io.maxSegment then (.invalidArgument, io)
  else segExpireLoop segno (min nretry senIoMaxRetry) io

namespace SenIo

variable {io : SenIo} {segno : Nat}

@[simp]
theorem nref_setInfo (info : SegInfo) : (io.setInfo segno info).nref segno = info.nref := by
  simp [setInfo, nref]

@[simp]
theorem map_setInfo (info : SegInfo) : (io.setInfo segno info).map segno = info.map := by
  simp [setInfo, map]

@[simp]
theorem nref_touch : (io.touch segno).nref segno = io.nref segno := by
  simp [touch, nref]

@[simp]
theorem map_touch : (io.touch segno).map segno = io.map segno := by
  simp [touch, map]

@[simp]
theorem map_addRef : (io.addRef segno).map segno = io.map segno := by
  rw [addRef, map_setInfo, SegInfo.map_add]
  rfl

@[simp]
theorem map_subRef : (io.subRef segno).map segno = io.map segno := by
  rw [subRef, map_setInfo, SegInfo.map_sub]
  rfl

theorem nref_addRef (h : io.nref segno < senIoMaxRef) :
    (io.addRef segno).nref segno = io.nref segno + 1 := by
  rw [addRef, nref_setInfo, SegInfo.nref_add]
  unfold senIoMaxRef at h
  exact Nat.mod_eq_of_lt (show io.nref segno + 1 < 2 ^ 32 by omega)

theorem nref_subRef (hpos : 0 < io.nref segno) (h : io.nref segno ≤ senIoMaxRef) :
    (io.subRef segno).nref segno = io.nref segno - 1 := by
  rw [subRef, nref_setInfo]
  unfold senIoMaxRef at h
  exact u32Sub_of_le (a := io.nref segno) hpos (by omega)

/-- What is left of a reference that was turned away. -/
theorem nref_turnedAway (h : io.nref segno < senIoMaxRef) :
    ((io.addRef segno).subRef segno).nref segno = io.nref segno := by
  have hadd := nref_addRef h
  rw [nref_subRef (by omega) (by omega), hadd, Nat.add_sub_cancel]

/-- Where a segment is mapped when nobody holds it yet. -/
def mapped (io : SenIo) (segno : Nat) (os : Mapper) : Option Nat :=
  if io.opened (io.place segno).1 || os.opens (io.place segno).1 then
    os.mmap (io.place segno).1 (io.place segno).2 io.segmentSize
  else io.map segno

theorem nref_mmap (os : Mapper) : (io.mmap segno os).nref segno = io.nref segno := by
  dsimp only [mmap]
  split <;> simp [setInfo, nref]

theorem map_mmap (os : Mapper) :
    (io.mmap segno os).map segno =
      os.mmap (io.place segno).1 (io.place segno).2 io.segmentSize := by
  dsimp only [mmap]
  split <;> simp [setInfo, map]

theorem nref_segMap (os : Mapper) : (io.segMap segno os).nref segno = io.nref segno := by
  dsimp only [segMap]
  split_ifs
  · exact nref_mmap os
  · exact nref_mmap os
  · rfl

theorem map_segMap (os : Mapper) : (io.segMap segno os).map segno = io.mapped segno os := by
  dsimp only [segMap]
  unfold mapped
  by_cases hopened : io.opened (io.place segno).1
  · rw [if_pos hopened, map_mmap, if_pos (by simp [hopened])]
  by_cases hopens : os.opens (io.place segno).1
  · rw [if_neg hopened, if_pos hopens, map_mmap, if_pos (by simp [hopens])]
    rfl
  · rw [if_neg hopened, if_neg hopens, if_neg (by simp [hopened, hopens])]

theorem mapped_addRef (os : Mapper) : (io.addRef segno).mapped segno os = io.mapped segno os := by
  unfold mapped
  rw [map_addRef]
  rfl

end SenIo

section Loop

variable {mapIt : SenIo → SenIo} {giveUp : Bool → SenIo → SenIo}
variable {io : SenIo} {segno left : Nat}

/-- A mapped segment is pinned by the first attempt. -/
theorem segRefLoop_mapped (hnref : io.nref segno < senIoMaxRef) (hmap : io.map segno ≠ none) :
    segRefLoop mapIt giveUp segno left io =
      (io.map segno, (io.addRef segno).touch segno) := by
  unfold segRefLoop
  simp [Nat.not_le.mpr hnref, hmap]

/-- A segment that nobody holds is mapped by the first attempt. -/
theorem segRefLoop_first (hnref : io.nref segno = 0) (hmap : io.map segno = none) :
    segRefLoop mapIt giveUp segno left io =
      ((mapIt (io.addRef segno)).map segno, (mapIt (io.addRef segno)).touch segno) := by
  unfold segRefLoop
  simp [hnref, hmap, senIoMaxRef]

/-- A segment that is held and not mapped turns every attempt away. -/
theorem segRefLoop_held (hgiveUp : ∀ io, ((giveUp false io).nref segno) = io.nref segno)
    (hnref : io.nref segno < senIoMaxRef) (hheld : io.nref segno ≠ 0)
    (hmap : io.map segno = none) :
    (segRefLoop mapIt giveUp segno left io).1 = none ∧
      (segRefLoop mapIt giveUp segno left io).2.nref segno = io.nref segno := by
  have hback := SenIo.nref_turnedAway hnref
  induction left generalizing io with
  | zero =>
      unfold segRefLoop
      simp [Nat.not_le.mpr hnref, hmap, hheld, hgiveUp, hback]
  | succ left ih =>
      have hnext := @ih ((io.addRef segno).subRef segno) (hback ▸ hnref) (hback ▸ hheld)
        (by simpa using hmap) (SenIo.nref_turnedAway (hback ▸ hnref))
      rw [hback] at hnext
      unfold segRefLoop
      simpa [Nat.not_le.mpr hnref, hmap, hheld] using hnext

end Loop

/-- The two implementations of a reference. -/
inductive SegRefKind
  | call
  | inlined
  deriving DecidableEq, Repr

/-- What runs for a reference. -/
def SegRefKind.run : SegRefKind → Mapper → SenIo → Nat → Option Nat × SenIo
  | .call => senIoSegRef
  | .inlined => senIoSegRefMacro

/-- A reference that gets no address leaves the counter as it was. Every other one raises it by
one, and gets the address that the other implementation gets. -/
structure SegRefKind.Exact (kind : SegRefKind) (os : Mapper) (io : SenIo) (segno : Nat) : Prop where
  failed : (kind.run os io segno).1 = none → (kind.run os io segno).2.nref segno = io.nref segno
  pinned : (kind.run os io segno).1 ≠ none →
    (kind.run os io segno).2.nref segno = io.nref segno + 1 ∧
      ∀ other : SegRefKind, (other.run os io segno).1 = (kind.run os io segno).1

section Exact

variable {os : Mapper} {io : SenIo} {segno : Nat}

/-- Both implementations pin a segment that is mapped. -/
theorem run_mapped (kind : SegRefKind) (hseg : segno < io.maxSegment)
    (hnref : io.nref segno < senIoMaxRef) (hmap : io.map segno ≠ none) :
    kind.run os io segno = (io.map segno, (io.addRef segno).touch segno) := by
  cases kind with
  | call =>
      change senIoSegRef os io segno = _
      rw [senIoSegRef, if_neg (Nat.not_le.mpr hseg), segRefLoop_mapped hnref hmap]
  | inlined => exact segRefLoop_mapped hnref hmap

variable (os) in
/-- Both implementations are turned away from a segment that is held and not mapped. -/
theorem run_held (kind : SegRefKind) (hnref : io.nref segno < senIoMaxRef)
    (hheld : io.nref segno ≠ 0) (hmap : io.map segno = none) :
    (kind.run os io segno).1 = none ∧ (kind.run os io segno).2.nref segno = io.nref segno := by
  cases kind with
  | call =>
      change (senIoSegRef os io segno).1 = none ∧ (senIoSegRef os io segno).2.nref segno = _
      unfold senIoSegRef
      split_ifs
      · exact ⟨rfl, rfl⟩
      · exact segRefLoop_held (fun _ => rfl) hnref hheld hmap
  | inlined => exact segRefLoop_held (fun _ => SenIo.nref_touch) hnref hheld hmap

variable (os) in
/-- Both implementations get the address that a segment nobody holds is mapped at. Where there is
none, the function keeps what it added and the macro takes it back. -/
theorem run_first (kind : SegRefKind) (hseg : segno < io.maxSegment) (hnref : io.nref segno = 0)
    (hmap : io.map segno = none) :
    (kind.run os io segno).1 = io.mapped segno os ∧
      (kind.run os io segno).2.nref segno =
        if kind = .inlined ∧ io.mapped segno os = none then 0 else 1 := by
  have hone : ((io.addRef segno).segMap segno os).nref segno = 1 := by
    rw [SenIo.nref_segMap, SenIo.nref_addRef (by rw [hnref]; decide), hnref]
  have haddr : ((io.addRef segno).segMap segno os).map segno = io.mapped segno os := by
    rw [SenIo.map_segMap, SenIo.mapped_addRef]
  cases kind with
  | call =>
      change (senIoSegRef os io segno).1 = _ ∧ (senIoSegRef os io segno).2.nref segno = _
      rw [senIoSegRef, if_neg (Nat.not_le.mpr hseg), segRefLoop_first hnref hmap]
      simp [hone, haddr]
  | inlined =>
      change (senIoSegRefMacro os io segno).1 = _ ∧
        (senIoSegRefMacro os io segno).2.nref segno = _
      rw [senIoSegRefMacro, segRefLoop_first hnref hmap]
      by_cases hfail : io.mapped segno os = none
      · have hsub : (((io.addRef segno).segMap segno os).subRef segno).nref segno =
            ((io.addRef segno).segMap segno os).nref segno - 1 :=
          SenIo.nref_subRef (by omega) (by rw [hone]; decide)
        simp [haddr, hfail, hsub, hone]
      · simp [haddr, hfail, hone]

/-- **A reference without an address leaves no pin**, apart from one case: the function
`sen_io_seg_ref` keeps its pin when it finds the segment neither held nor mapped and cannot map it.
The caller of the macro answers for the number of the segment. -/
theorem segRef_exact_iff (kind : SegRefKind) (hnref : io.nref segno < senIoMaxRef)
    (hvalid : kind = .inlined → segno < io.maxSegment) :
    kind.Exact os io segno ↔
      ¬ (kind = .call ∧ segno < io.maxSegment ∧ io.nref segno = 0 ∧ io.map segno = none ∧
        io.mapped segno os = none) := by
  by_cases hseg : segno < io.maxSegment
  swap
  · have hcall : kind = .call := by
      cases kind with
      | call => rfl
      | inlined => exact absurd (hvalid rfl) hseg
    subst hcall
    have hrun : SegRefKind.call.run os io segno = (none, io) := if_pos (Nat.not_lt.mp hseg)
    exact iff_of_true ⟨fun _ => by rw [hrun], fun h => absurd (by rw [hrun]) h⟩ (by simp [hseg])
  by_cases hmap : io.map segno = none
  swap
  · refine iff_of_true ⟨?_, fun _ => ⟨?_, fun other => ?_⟩⟩ (by simp [hmap])
    · rw [run_mapped kind hseg hnref hmap]
      exact fun h => absurd h hmap
    · rw [run_mapped kind hseg hnref hmap, SenIo.nref_touch, SenIo.nref_addRef hnref]
    · rw [run_mapped kind hseg hnref hmap, run_mapped other hseg hnref hmap]
  by_cases hheld : io.nref segno = 0
  swap
  · obtain ⟨hnone, hsame⟩ := run_held os kind hnref hheld hmap
    exact iff_of_true ⟨fun _ => hsame, fun h => absurd hnone h⟩ (by simp [hheld])
  have hfirst := fun kind => run_first os kind hseg hheld hmap
  by_cases hfail : io.mapped segno os = none
  · cases kind with
    | call =>
        refine iff_of_false (fun h => ?_) (by simp [hseg, hmap, hheld, hfail])
        have hsame := h.failed ((hfirst .call).1.trans hfail)
        rw [(hfirst .call).2, hheld] at hsame
        simp at hsame
    | inlined =>
        refine iff_of_true ⟨fun _ => ?_, fun h => ?_⟩ (by simp)
        · rw [(hfirst .inlined).2, hheld, if_pos ⟨rfl, hfail⟩]
        · exact absurd ((hfirst .inlined).1.trans hfail) h
  · refine iff_of_true ⟨fun h => ?_, fun _ => ⟨?_, fun other => ?_⟩⟩ (by simp [hfail])
    · exact absurd ((hfirst kind).1.symm.trans h) hfail
    · rw [(hfirst kind).2, if_neg (by simp [hfail]), hheld]
    · rw [(hfirst kind).1, (hfirst other).1]

/-- A file of one segment that nobody has used yet. -/
def unusedIo : SenIo where
  maxSegment := 1
  segmentSize := 0x40000
  currSize := 0
  base := 0
  baseSeg := 0
  v08p := false
  opened _ := false
  maps _ := ⟨⟨0, none⟩, 0⟩
  nmaps := 0
  count := 0

/-- The same file with the segment mapped and held by one user. -/
def heldIo : SenIo := { unusedIo with maps := fun _ => ⟨⟨1, some 0x2000⟩, 0⟩, nmaps := 1 }

/-- A second reference, for which the system is not needed. -/
theorem segRef_exact_iff_held :
    SegRefKind.call.Exact ⟨fun _ => false, fun _ _ _ => none⟩ heldIo 0 ∧
      SegRefKind.inlined.Exact ⟨fun _ => false, fun _ _ _ => none⟩ heldIo 0 :=
  ⟨(segRef_exact_iff .call (by decide) (by simp)).mpr (by decide),
    (segRef_exact_iff .inlined (by decide) (fun _ => by decide)).mpr (by decide)⟩

/-- The first reference to a file that the system does not open: there is no address, and the
counter is at 1. -/
theorem segRef_exact_iff_fails :
    ¬ SegRefKind.call.Exact ⟨fun _ => false, fun _ _ _ => none⟩ unusedIo 0 := by
  intro h
  obtain ⟨hnone, hone⟩ := run_first ⟨fun _ => false, fun _ _ _ => none⟩ .call
    (show 0 < unusedIo.maxSegment by decide) rfl rfl
  have hsame := h.failed hnone
  rw [hone] at hsame
  exact absurd hsame (by decide)

end Exact

section Leak

variable {os os' : Mapper} {io : SenIo} {segno : Nat}

theorem segExpireLoop_held {left : Nat} (hnref : io.nref segno < senIoMaxRef)
    (hheld : io.nref segno ≠ 0) : (segExpireLoop segno left io).1 = .abnormalError := by
  have hback := SenIo.nref_turnedAway hnref
  induction left generalizing io with
  | zero =>
      unfold segExpireLoop
      simp [hheld]
  | succ left ih =>
      unfold segExpireLoop
      simpa [hheld] using @ih ((io.addRef segno).subRef segno) (hback ▸ hnref)
        (hback ▸ hheld) (SenIo.nref_turnedAway (hback ▸ hnref))

/-- A segment that nobody holds is expired by the first attempt. -/
theorem senIoSegExpire_free (hseg : segno < io.maxSegment) (hfree : io.nref segno = 0)
    (nretry : Nat) : (senIoSegExpire io segno nretry).1 = .success := by
  have hone : (io.addRef segno).nref segno = 1 := by
    rw [SenIo.nref_addRef (by rw [hfree]; decide), hfree]
  rw [senIoSegExpire, if_neg (Nat.not_le.mpr hseg)]
  unfold segExpireLoop
  simp [hfree, hone]

/-- Behind a pin that the function has left, no later reference maps the segment, whatever the
system answers then, and nobody can expire it. -/
theorem senIoSegRef_leak (hseg : segno < io.maxSegment) (hfree : io.nref segno = 0)
    (hmap : io.map segno = none) (hfail : io.mapped segno os = none) :
    (∀ kind : SegRefKind, (kind.run os' (senIoSegRef os io segno).2 segno).1 = none) ∧
      ∀ nretry, (senIoSegExpire (senIoSegRef os io segno).2 segno nretry).1 ≠ .success := by
  have hrun : senIoSegRef os io segno = _ :=
    (if_neg (Nat.not_le.mpr hseg)).trans (segRefLoop_first hfree hmap)
  have hleft : (senIoSegRef os io segno).2.nref segno = 1 :=
    (run_first os .call hseg hfree hmap).2.trans (if_neg (by simp))
  have hnull : (senIoSegRef os io segno).2.map segno = none := by
    rw [hrun, SenIo.map_touch, SenIo.map_segMap, SenIo.mapped_addRef, hfail]
  constructor
  · intro kind
    exact (run_held os' kind (by rw [hleft]; decide) (by rw [hleft]; decide) hnull).1
  · intro nretry
    unfold senIoSegExpire
    split_ifs
    · simp
    · rw [segExpireLoop_held (by rw [hleft]; decide) (by rw [hleft]; decide)]
      simp

end Leak

end Senna.Io
