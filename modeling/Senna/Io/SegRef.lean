/-
# References to a mapped segment

Threads pin a segment of a file with `SEN_IO_SEG_REF`, let go of it with `SEN_IO_SEG_UNREF` and
unmap it with `sen_io_seg_expire`. They share one counter, `nref`, and one pointer, `map`. The
counter is changed by atomic additions only, which return its old value: a pin adds 1, an attempt
adds 1 for as long as it lasts, and a thread that is about to unmap the segment adds `2 ^ 31`.
Who finds the counter at 0 may map the segment or go on to unmap it.

A step of a thread is one access to the counter or the pointer, with the tests of local
values behind it. How often an attempt is repeated is left open.
-/

import Senna.Base

namespace Senna.Io

/-- `SEN_IO_MAX_REF`. -/
def senIoMaxRef : Nat := 0x80000000

/-- Where a thread is in `SEN_IO_SEG_REF` or `sen_io_seg_expire`. -/
inductive SegPc
  /-- Outside of the operations. -/
  | idle
  /-- Before `SEN_ATOMIC_ADD_EX(pnref, 1, nref)` of a reference. -/
  | ref
  /-- Before `if (!info->map)`, with `nref`. -/
  | test (nref : Nat)
  /-- Before the counter is lowered and the reference is tried again. -/
  | back
  /-- Inside `sen_io_seg_map_`. -/
  | mapping
  /-- Before `if (!info->map)` behind it. -/
  | mapped
  /-- Before the counter is lowered because the segment could not be mapped. -/
  | failed
  /-- Before `addr = info->map`; the thread's part of the counter is still there, or not. -/
  | addr (counted : Bool)
  /-- Before `SEN_ATOMIC_ADD_EX(pnref, 1, nref)` of `sen_io_seg_expire`. -/
  | expire
  /-- Before the counter is lowered because it was not zero. -/
  | expireBack
  /-- Before `SEN_ATOMIC_ADD_EX(pnref, SEN_IO_MAX_REF, nref)`. -/
  | claim
  /-- Before the claim is taken back. -/
  | claimBack
  /-- Before `SEN_MUNMAP`. -/
  | unmap
  /-- Before `info->map = NULL`. -/
  | clear
  /-- Before the claim is given up after that. -/
  | release
  deriving DecidableEq, Repr

/-- `sen_io_mapinfo`, with `NULL` as `none`. -/
structure SegInfo where
  nref : Nat
  map : Option Nat
  deriving DecidableEq, Repr

/-- A thread: where it is, and the addresses that it got for the pins it holds. -/
structure SegThread where
  pc : SegPc
  pins : List Nat
  deriving DecidableEq, Repr

/-- What is not determined by the code: which operation a thread starts, whether the segment can
be mapped and where, and whether `sen_io_seg_expire` tries again (`nretry`). -/
inductive SegChoice
  | go
  | ref
  | unref (pin : Nat)
  | expire
  | mapAt (a : Nat)
  | mmapFails
  | openFails
  | giveUp
  deriving DecidableEq, Repr

/-- `SEN_ATOMIC_ADD_EX`, without the old value. -/
def SegInfo.add (info : SegInfo) (i : Nat) : SegInfo :=
  { info with nref := (info.nref + i) % 2 ^ 32 }

/-- `SEN_ATOMIC_ADD_EX` of a negative number. -/
def SegInfo.sub (info : SegInfo) (i : Nat) : SegInfo := { info with nref := u32Sub info.nref i }

theorem SegInfo.nref_add (info : SegInfo) (i : Nat) :
    (info.add i).nref = (info.nref + i) % 2 ^ 32 := rfl

theorem SegInfo.nref_sub (info : SegInfo) (i : Nat) :
    (info.sub i).nref = (info.nref + 2 ^ 32 - i) % 2 ^ 32 := rfl

@[simp]
theorem SegInfo.map_add (info : SegInfo) (i : Nat) : (info.add i).map = info.map := by
  cases info
  rfl

@[simp]
theorem SegInfo.map_sub (info : SegInfo) (i : Nat) : (info.sub i).map = info.map := by
  cases info
  rfl

/-- A step of a thread. -/
def SegThread.step (info : SegInfo) (th : SegThread) (choice : SegChoice) :
    Option (SegInfo × SegThread) :=
  let goto (info : SegInfo) (pc : SegPc) := some (info, { th with pc := pc })
  match th.pc, choice with
  | .idle, .ref => goto info .ref
  | .idle, .unref pin =>
      if pin < th.pins.length then
        some (info.sub 1, { th with pins := th.pins.eraseIdx pin })
      else none
  | .idle, .expire => goto info .expire
  | .ref, .go =>
      goto (info.add 1) (if info.nref ≥ senIoMaxRef then .back else .test info.nref)
  | .back, .go => goto (info.sub 1) .ref
  | .test nref, .go =>
      goto info (if info.map.isSome then .addr true else if nref ≠ 0 then .back else .mapping)
  | .mapping, .mapAt a => goto { info with map := some a } .mapped
  | .mapping, .mmapFails => goto { info with map := none } .mapped
  | .mapping, .openFails => goto info .mapped
  | .mapped, .go => goto info (if info.map.isSome then .addr true else .failed)
  | .failed, .go => goto (info.sub 1) (.addr false)
  | .addr _, .go => some (info, ⟨.idle, info.map.toList ++ th.pins⟩)
  | .expire, .go => goto (info.add 1) (if info.nref ≠ 0 then .expireBack else .claim)
  | .expireBack, .go => goto (info.sub 1) .expire
  | .expireBack, .giveUp => goto (info.sub 1) .idle
  | .claim, .go =>
      goto (info.add senIoMaxRef) (if info.nref > 1 then .claimBack else .unmap)
  | .claimBack, .go => goto (info.sub (senIoMaxRef + 1)) .expire
  | .claimBack, .giveUp => goto (info.sub (senIoMaxRef + 1)) .idle
  | .unmap, .go => goto info .clear
  | .clear, .go => goto { info with map := none } .release
  | .release, .go => goto (info.sub (senIoMaxRef + 1)) .idle
  | _, _ => none

/-- A segment and the threads that use it. -/
structure SegState (ι : Type) where
  info : SegInfo
  threads : ι → SegThread

namespace SegState

variable {ι : Type} [DecidableEq ι]

/-- The segment is not mapped, and no thread uses it. -/
def init : SegState ι := ⟨⟨0, none⟩, fun _ => ⟨.idle, []⟩⟩

/-- A step of the thread `i`. -/
def step (s : SegState ι) (i : ι) (choice : SegChoice) : Option (SegState ι) :=
  ((s.threads i).step s.info choice).map fun (info, th) => ⟨info, Function.update s.threads i th⟩

/-- The states that steps which satisfy `ok` lead to. -/
inductive Reach (ok : SegState ι → ι → SegChoice → Prop) : SegState ι → Prop
  | init : Reach ok init
  | step {s s' : SegState ι} {i : ι} {choice : SegChoice} (h : Reach ok s)
      (hok : ok s i choice) (hstep : s.step i choice = some s') : Reach ok s'

end SegState

/-- Whether a thread is inside of mapping or unmapping the segment. -/
def SegPc.mapsOrUnmaps : SegPc → Bool
  | .mapping | .unmap | .clear => true
  | _ => false

end Senna.Io
