/-
# Receiving messages

`sen_com_sqtp_recv` reads one message of the protocol into a growing buffer: a header of 16 bytes,
which says how long the body is, and the body. The buffer is rewound when it can hold a header and
grown when it cannot hold the message, and a `NUL` is stored behind the body. The transport
may deliver fewer bytes than were asked for, and may be interrupted.

The header is read as a little-endian machine lays it out. What `recv` does next is a schedule;
behind its end it delivers whatever it is asked for.
-/

import Senna.Str.Rbuf

namespace Senna.Com

open Senna.Lib (Memory)
open Senna.Str

/-- What one `recv` does: it delivers up to so many bytes, but at least one, is interrupted, or
fails. -/
inductive Delivery
  | bytes (n : Nat)
  | interrupted
  | failed (errno : Nat)
  deriving DecidableEq, Repr

/-- A connection: the bytes that were sent and not yet received, and what `recv` does next. -/
structure Transport where
  bytes : List UInt8
  schedule : List Delivery

/-- What `recv` returns: bytes, 0 at the end of the stream, or -1. -/
inductive Received
  | data (bs : List UInt8)
  | closed
  | interrupted
  | failed (errno : Nat)

namespace Transport

variable (t : Transport)

/-- `recv` of `rest` bytes that delivers `n`. -/
def deliver (n rest : Nat) : Received × Transport :=
  let k := min (max n 1) (min rest t.bytes.length)
  (if k = 0 then .closed else .data (t.bytes.take k), { t with bytes := t.bytes.drop k })

/-- `recv(fd, buf, rest, MSG_WAITALL)` -/
def recv (rest : Nat) : Received × Transport :=
  match t.schedule with
  | [] => t.deliver rest rest
  | .bytes n :: schedule => { t with schedule := schedule }.deliver n rest
  | .interrupted :: schedule => (.interrupted, { t with schedule := schedule })
  | .failed errno :: schedule => (.failed errno, { t with schedule := schedule })

/-- No `recv` fails but for an interruption. -/
def NoFail : Prop := ∀ errno, Delivery.failed errno ∉ t.schedule

variable {t}

theorem deliver_eq (n : Nat) {rest : Nat} (hrest : rest ≠ 0) :
    (t.bytes = [] ∧ t.deliver n rest = (.closed, t)) ∨
      ∃ k, 0 < k ∧ k ≤ rest ∧ k ≤ t.bytes.length ∧
        t.deliver n rest = (.data (t.bytes.take k), { t with bytes := t.bytes.drop k }) := by
  unfold deliver
  by_cases hnil : t.bytes = []
  · left
    obtain ⟨bytes, schedule⟩ := t
    subst hnil
    simp
  · have := List.length_pos_of_ne_nil hnil
    right
    refine ⟨min (max n 1) (min rest t.bytes.length), by omega, by omega, by omega, ?_⟩
    simp only [Prod.mk.injEq, and_true]
    exact if_neg (by omega)

/-- **What `recv` can do** on a transport that does not fail. -/
theorem recv_cases (h : t.NoFail) {rest : Nat} (hrest : rest ≠ 0) :
    ∃ t', t'.NoFail ∧ t'.schedule.length ≤ t.schedule.length ∧
      ((t'.schedule.length < t.schedule.length ∧ t'.bytes = t.bytes ∧
          t.recv rest = (.interrupted, t')) ∨
        (t.bytes = [] ∧ t'.bytes = [] ∧ t.recv rest = (.closed, t')) ∨
        ∃ k, 0 < k ∧ k ≤ rest ∧ k ≤ t.bytes.length ∧ t'.bytes = t.bytes.drop k ∧
          t.recv rest = (.data (t.bytes.take k), t')) := by
  obtain ⟨bytes, schedule⟩ := t
  cases schedule with
  | nil =>
      rcases deliver_eq (t := ⟨bytes, []⟩) rest hrest with ⟨hnil, heq⟩ | ⟨k, hpos, hle, hlen, heq⟩
      · exact ⟨⟨bytes, []⟩, h, le_rfl, .inr (.inl ⟨hnil, hnil, heq⟩)⟩
      · exact ⟨⟨bytes.drop k, []⟩, h, le_rfl, .inr (.inr ⟨k, hpos, hle, hlen, rfl, heq⟩)⟩
  | cons d schedule =>
      have hrest' : (⟨bytes, schedule⟩ : Transport).NoFail := fun errno hmem =>
        h errno (List.mem_cons_of_mem _ hmem)
      have hle : schedule.length ≤ (d :: schedule).length := Nat.le_succ _
      cases d with
      | bytes n =>
          rcases deliver_eq (t := ⟨bytes, schedule⟩) n hrest with
            ⟨hnil, heq⟩ | ⟨k, hpos, hlek, hlen, heq⟩
          · exact ⟨⟨bytes, schedule⟩, hrest', hle, .inr (.inl ⟨hnil, hnil, heq⟩)⟩
          · exact ⟨⟨bytes.drop k, schedule⟩, hrest', hle,
              .inr (.inr ⟨k, hpos, hlek, hlen, rfl, heq⟩)⟩
      | interrupted =>
          exact ⟨⟨bytes, schedule⟩, hrest', hle, .inl ⟨Nat.lt_succ_self _, rfl, rfl⟩⟩
      | failed errno => exact absurd List.mem_cons_self (h errno)

end Transport

/-- How a receive loop ends; `none` for the end of the stream. -/
inductive RecvEnd
  | filled
  | broken (errno : Option Nat)
  deriving DecidableEq, Repr

theorem Transport.recv_interrupted {t t' : Transport} {rest : Nat}
    (h : t.recv rest = (.interrupted, t')) : t'.schedule.length < t.schedule.length := by
  obtain ⟨bytes, schedule⟩ := t
  rcases schedule with _ | ⟨_ | _ | _, schedule⟩ <;>
    simp only [recv, deliver, Prod.mk.injEq, reduceCtorEq, false_and] at h
  · split_ifs at h <;> simp at h
  · split_ifs at h <;> simp at h
  · rw [← h.2]
    exact Nat.lt_succ_self _

theorem Transport.recv_data {t t' : Transport} {rest : Nat} {bs : List UInt8} (hrest : rest ≠ 0)
    (h : t.recv rest = (.data bs, t')) :
    t'.schedule.length + (rest - bs.length) < t.schedule.length + rest := by
  obtain ⟨bytes, schedule⟩ := t
  have hdeliver : ∀ {s : Transport} {n : Nat}, s.deliver n rest = (.data bs, t') →
      t'.schedule.length + (rest - bs.length) < s.schedule.length + rest := by
    intro s n heq
    rcases s.deliver_eq n hrest with ⟨_, hclosed⟩ | ⟨k, hpos, hle, hlen, hdata⟩
    · rw [hclosed] at heq
      simp at heq
    · rw [hdata] at heq
      simp only [Prod.mk.injEq, Received.data.injEq] at heq
      rw [← heq.1, ← heq.2, List.length_take, Nat.min_eq_left hlen]
      dsimp only
      omega
  rcases schedule with _ | ⟨_ | _ | _, schedule⟩
  · exact hdeliver h
  · have := hdeliver (s := ⟨bytes, schedule⟩) h
    simp only [List.length_cons] at this ⊢
    omega
  · simp [recv] at h
  · simp [recv] at h

/-- The two receive loops of `sen_com_sqtp_recv`: `rest` bytes to `curr`. -/
def recvLoop (t : Transport) (rest : Nat) (buf : SenRbuf) :
    Option (RecvEnd × Transport × SenRbuf) :=
  if _hrest : rest = 0 then some (.filled, t, buf)
  else
    match _h : t.recv rest with
    | (.data bs, t') =>
        match buf.store buf.curr bs with
        | some buf => recvLoop t' (rest - bs.length) (buf.advance bs.length)
        | none => none
    | (.interrupted, t') => recvLoop t' rest buf
    | (.closed, t') => some (.broken none, t', buf)
    | (.failed errno, t') => some (.broken (some errno), t', buf)
termination_by t.schedule.length + rest
decreasing_by
  · exact Transport.recv_data ‹_› ‹_›
  · exact Nat.add_lt_add_right (Transport.recv_interrupted ‹_›) rest

section Steps

variable {t t' : Transport} {rest : Nat} {buf : SenRbuf}

theorem recvLoop_interrupted (hrest : rest ≠ 0) (h : t.recv rest = (.interrupted, t')) :
    recvLoop t rest buf = recvLoop t' rest buf := by
  rw [recvLoop, dif_neg hrest]
  split <;> simp_all

theorem recvLoop_closed (hrest : rest ≠ 0) (h : t.recv rest = (.closed, t')) :
    recvLoop t rest buf = some (.broken none, t', buf) := by
  rw [recvLoop, dif_neg hrest]
  split <;> simp_all

theorem recvLoop_data {bs : List UInt8} {stored : SenRbuf} (hrest : rest ≠ 0)
    (h : t.recv rest = (.data bs, t')) (hstore : buf.store buf.curr bs = some stored) :
    recvLoop t rest buf = recvLoop t' (rest - bs.length) (stored.advance bs.length) := by
  rw [recvLoop, dif_neg hrest]
  split <;> simp_all

end Steps

/-- **A receive loop fills what it was asked to**, or ends with the stream. -/
theorem recvLoop_spec {margin : Nat} {asked : List (Option UInt8)} {t : Transport} {rest : Nat}
    {buf : SenRbuf} (ht : t.NoFail) (h : buf.Holds margin asked)
    (hroom : buf.curr + rest ≤ buf.tail) :
    ∃ t' buf',
      recvLoop t rest buf =
          some (if rest ≤ t.bytes.length then .filled else .broken none, t', buf') ∧
        t'.NoFail ∧ t'.bytes = t.bytes.drop rest ∧ buf'.head = buf.head ∧ buf'.tail = buf.tail ∧
        buf'.Holds margin (asked ++ (t.bytes.take rest).map some) := by
  induction hn : t.schedule.length + rest using Nat.strong_induction_on
    generalizing t rest buf asked with
  | _ n ih =>
      by_cases hzero : rest = 0
      · subst hzero
        exact ⟨t, buf, by simp [recvLoop], ht, rfl, rfl, rfl, by simpa using h⟩
      obtain ⟨t', ht', hshort, hcases⟩ := Transport.recv_cases ht hzero
      rcases hcases with ⟨hless, hbytes, heq⟩ | ⟨hnil, hnil', heq⟩ |
        ⟨k, hpos, hle, hlen, hbytes, heq⟩
      · obtain ⟨t₂, buf₂, hloop, hrest⟩ := ih _ (by omega) ht' h hroom rfl
        rw [hbytes] at hloop hrest
        exact ⟨t₂, buf₂, (recvLoop_interrupted hzero heq).trans hloop, hrest⟩
      · refine ⟨t', buf, ?_, ht', by simp [hnil, hnil'], rfl, rfl, by simpa [hnil] using h⟩
        rw [recvLoop_closed hzero heq, hnil, if_neg (by simpa using hzero)]
      · have htake : (t.bytes.take k).length = k := by
          rw [List.length_take, Nat.min_eq_left hlen]
        obtain ⟨stored, hstore, hheld, hhead, hcurr, htail, hread⟩ :=
          h.store (t.bytes.take k) (by omega)
        rw [htake] at hread
        have hadvanced : (stored.advance k).Holds margin (asked ++ (t.bytes.take k).map some) :=
          hheld.advance (by omega) (by rw [hcurr, hread]; exact covers_some _)
        obtain ⟨t₂, buf₂, hloop, ht₂, hdrop, hhead₂, htail₂, hheld₂⟩ :=
          ih (t'.schedule.length + (rest - k)) (by omega) ht' hadvanced
            (show stored.curr + k + (rest - k) ≤ stored.tail by omega) rfl
        rw [hbytes, List.length_drop] at hloop
        have hle_iff : rest - k ≤ t.bytes.length - k ↔ rest ≤ t.bytes.length := by omega
        have htext : t.bytes.take k ++ t'.bytes.take (rest - k) = t.bytes.take rest := by
          rw [hbytes, ← List.take_add, Nat.add_sub_of_le hle]
        refine ⟨t₂, buf₂, ?_, ht₂, ?_, hhead₂.trans hhead, htail₂.trans htail, ?_⟩
        · rw [recvLoop_data hzero heq hstore, htake, hloop, if_congr hle_iff rfl rfl]
        · rw [hdrop, hbytes, List.drop_drop, Nat.add_sub_of_le hle]
        · rwa [List.append_assoc, ← List.map_append, htext] at hheld₂

/-- `sizeof(sen_com_sqtp_header)` -/
def sqtpHeaderSize : Nat := 16

/-- `SEN_COM_PROTO_SQTP` -/
def senComProtoSqtp : Nat := 20819

/-- The status codes that `sen_com_sqtp_recv` sets itself. -/
inductive SenComError
  | emem
  | erecvHead
  | erecvBody
  | eproto
  deriving DecidableEq, Repr

/-- The enumerator of a code. -/
def SenComError.code : SenComError → Nat
  | emem => 1
  | erecvHead => 2
  | erecvBody => 3
  | eproto => 4

/-- The number that bytes of a little-endian word make. -/
def leWord (bs : List UInt8) : Nat := bs.foldr (fun b n => b.toNat + 256 * n) 0

/-- The fields of `sen_com_sqtp_header` that are looked at. -/
structure SqtpHeader where
  size : Nat
  proto : Nat
  status : Nat
  info : Nat

/-- `SEN_COM_SQTP_MSG_HEADER` -/
def sqtpHeader (bs : List UInt8) : SqtpHeader where
  size := leWord (bs.take 4)
  proto := leWord ((bs.drop 6).take 2)
  status := leWord ((bs.drop 10).take 2)
  info := leWord ((bs.drop 12).take 4)

/-- What a call returns: `rc`, `*status` and `*info`. -/
structure SqtpReturn where
  rc : SenRc
  status : Nat
  info : Nat
  deriving DecidableEq, Repr

section Recv

variable (place : Nat → Nat → Option Nat) (margin : Nat)

/-- The body of the message whose header is in the buffer. -/
def recvBody (t : Transport) (buf : SenRbuf) (header : SqtpHeader) :
    Option (SqtpReturn × Transport × SenRbuf) :=
  let wholeSize := sqtpHeaderSize + header.size
  let grown :=
    if buf.wsize < wholeSize then senRbufResize place margin buf wholeSize else (.success, buf)
  match grown with
  | (.success, buf) => do
      let (ended, t, buf) ← recvLoop t header.size buf
      match ended with
      | .broken errno =>
          return (⟨.externalError, SenComError.erecvBody.code, errno.getD header.info⟩, t, buf)
      | .filled =>
          let buf ← buf.store buf.curr [0]
          return (⟨.success, header.status, header.info⟩, t, buf)
  | (rc, buf) => some (⟨rc, SenComError.emem.code, 2⟩, t, buf)

/-- `sen_com_sqtp_recv`; `info` is what `*info` was before. -/
def senComSqtpRecv (info : Nat) (t : Transport) (buf : SenRbuf) :
    Option (SqtpReturn × Transport × SenRbuf) :=
  let cleared :=
    if buf.wsize < sqtpHeaderSize then senRbufReinit place margin buf sqtpHeaderSize
    else (.success, buf.rewind)
  match cleared with
  | (.success, buf) => do
      let (ended, t, buf) ← recvLoop t sqtpHeaderSize buf
      match ended with
      | .broken errno =>
          return (⟨.externalError, SenComError.erecvHead.code, errno.getD info⟩, t, buf)
      | .filled =>
          let header := sqtpHeader (buf.mem.read buf.head sqtpHeaderSize)
          if header.proto ≠ senComProtoSqtp then
            return (⟨.invalidFormat, SenComError.eproto.code, header.proto⟩, t, buf)
          recvBody place margin t buf header
  | (rc, buf) => some (⟨rc, SenComError.emem.code, 1⟩, t, buf)

end Recv

/-- A message: the bytes of a header of the protocol and a body of the size it gives. -/
structure Message where
  header : List UInt8
  body : List UInt8
  length_header : header.length = sqtpHeaderSize
  proto : (sqtpHeader header).proto = senComProtoSqtp
  size : (sqtpHeader header).size = body.length

/-- A message on the wire. -/
def Message.bytes (m : Message) : List UInt8 := m.header ++ m.body

/-- What a call returns for a message. -/
def Message.returned (m : Message) : SqtpReturn :=
  ⟨.success, (sqtpHeader m.header).status, (sqtpHeader m.header).info⟩

/-- The size of the room behind the first step of a call, which found room of size `wsize`. -/
def clearedSize (margin wsize : Nat) : Nat :=
  if wsize < sqtpHeaderSize then rbufBlockSize margin sqtpHeaderSize - margin else wsize

/-- The size of the room in which a message of `wholeSize` bytes is received. -/
def grownSize (margin wsize wholeSize : Nat) : Nat :=
  if wsize < wholeSize then rbufBlockSize margin wholeSize - margin else wsize

/-- No message is as long as the room that its call finds; `sizes` are those of the bodies. -/
def NoExactFit (margin : Nat) : Nat → List Nat → Prop
  | _, [] => True
  | wsize, size :: sizes =>
      let wholeSize := sqtpHeaderSize + size
      wholeSize ≠ clearedSize margin wsize ∧
        NoExactFit margin (grownSize margin (clearedSize margin wsize) wholeSize) sizes

theorem covers_some_iff {bs cs : List UInt8} : Covers (bs.map some) cs ↔ bs = cs := by
  constructor
  · intro h
    induction bs generalizing cs with
    | nil => exact (List.forall₂_nil_left_iff.mp h).symm
    | cons b bs ih =>
        obtain ⟨c, cs, hhead, htail, rfl⟩ := List.forall₂_cons_left_iff.mp h
        rw [hhead b rfl, ih htail]
  · rintro rfl
    exact covers_some bs

theorem leWord_lt (bs : List UInt8) : leWord bs < 256 ^ bs.length := by
  induction bs with
  | nil => exact Nat.one_pos
  | cons b bs ih =>
      have hb := b.toNat_lt
      have hstep : leWord (b :: bs) = b.toNat + 256 * leWord bs := rfl
      rw [hstep, List.length_cons, pow_succ]
      omega

/-- The size of a body is a `uint32_t`. -/
theorem Message.length_body_lt (m : Message) : m.body.length < 2 ^ 32 := by
  have h := leWord_lt (m.header.take 4)
  have hlen : (m.header.take 4).length = 4 := by
    rw [List.length_take, m.length_header]
    rfl
  rw [hlen] at h
  exact m.size ▸ h

section Call

variable {place : Nat → Nat → Option Nat} {margin info : Nat} {t : Transport} {buf : SenRbuf}
variable {asked : List (Option UInt8)}

/-- The margin and a message do not come near the end of the address space. -/
theorem noWrap_message (hmargin : margin < 2 ^ 31) {size : Nat} (hsize : size < 2 ^ 32) :
    NoWrap margin (sqtpHeaderSize + size) := by
  unfold NoWrap sqtpHeaderSize rbufUnit
  omega

theorem length_held (h : buf.Holds margin asked) : buf.curr - buf.head = asked.length := by
  have hlen := h.text.length_eq
  rw [Memory.length_read] at hlen
  exact hlen.symm

theorem holds_rewind (h : buf.Holds margin asked) : buf.rewind.Holds margin [] where
  head_le := le_rfl
  curr_le := h.head_le.trans h.curr_le
  tail_lt := h.tail_lt
  null := h.null
  margin_le := h.margin_le
  text := by
    change Covers [] (buf.mem.read buf.head (buf.head - buf.head))
    rw [Nat.sub_self]
    exact .nil

/-- The first step of a call leaves an empty buffer with room for a header. -/
theorem holds_cleared (hplace : Allocates place) (hmargin : margin < 2 ^ 31)
    (h : buf.Holds margin asked) :
    ∃ buf' : SenRbuf,
      (if buf.wsize < sqtpHeaderSize then senRbufReinit place margin buf sqtpHeaderSize
        else (.success, buf.rewind)) = (.success, buf') ∧
      buf'.Holds margin [] ∧ sqtpHeaderSize ≤ buf'.tail - buf'.head ∧
      buf'.tail - buf'.head = clearedSize margin (buf.tail - buf.head) := by
  rw [h.wsize_eq, clearedSize]
  split_ifs with hsmall
  · have hcount : NoWrap margin (sqtpHeaderSize + 0) := noWrap_message hmargin (by decide)
    obtain ⟨buf', heq, hholds, -, hsize, hroom⟩ := (holds_rewind h).resize hplace
      sqtpHeaderSize (by rw [length_held (holds_rewind h)]; exact Nat.zero_le _) hcount
    exact ⟨buf', heq, hholds, hroom.le, hsize⟩
  · exact ⟨buf.rewind, rfl, holds_rewind h, Nat.not_lt.mp hsmall, rfl⟩

/-- What a call does behind the header, up to the terminator. -/
theorem recvBody_spec (hplace : Allocates place) (hmargin : margin < 2 ^ 31) (ht : t.NoFail)
    {header : List UInt8} (hlen : header.length = sqtpHeaderSize)
    (h : buf.Holds margin (header.map some)) (hroom : sqtpHeaderSize ≤ buf.tail - buf.head)
    (fields : SqtpHeader) (hsize : fields.size < 2 ^ 32) :
    ∃ (t' : Transport) (buf' : SenRbuf), t'.NoFail ∧ t'.bytes = t.bytes.drop fields.size ∧
      buf'.Holds margin ((header ++ t.bytes.take fields.size).map some) ∧
      buf'.tail - buf'.head =
        grownSize margin (buf.tail - buf.head) (sqtpHeaderSize + fields.size) ∧
      recvBody place margin t buf fields =
        if fields.size ≤ t.bytes.length then
          (buf'.store buf'.curr [0]).map fun buf =>
            (⟨.success, fields.status, fields.info⟩, t', buf)
        else some (⟨.externalError, SenComError.erecvBody.code, fields.info⟩, t', buf') := by
  have hused : buf.curr - buf.head = sqtpHeaderSize := by
    rw [length_held h, List.length_map, hlen]
  have hgrown : ∃ grown : SenRbuf,
      (if buf.wsize < sqtpHeaderSize + fields.size then
          senRbufResize place margin buf (sqtpHeaderSize + fields.size)
        else (.success, buf)) = (.success, grown) ∧
      grown.Holds margin (header.map some) ∧ grown.curr + fields.size ≤ grown.tail ∧
      grown.tail - grown.head =
        grownSize margin (buf.tail - buf.head) (sqtpHeaderSize + fields.size) := by
    rw [h.wsize_eq, grownSize]
    split_ifs with hsmall
    · obtain ⟨grown, heq, hholds, hsame, hnew, hmore⟩ := h.resize hplace
        (sqtpHeaderSize + fields.size) (by omega) (noWrap_message hmargin hsize)
      have := hholds.head_le
      exact ⟨grown, heq, hholds, by omega, hnew⟩
    · have := h.head_le
      have := h.curr_le
      exact ⟨buf, rfl, h, by omega, rfl⟩
  obtain ⟨grown, heq, hholds, hfits, hnew⟩ := hgrown
  obtain ⟨t', buf', hloop, ht', hdrop, hhead, htail, hheld⟩ := recvLoop_spec ht hholds hfits
  refine ⟨t', buf', ht', hdrop, by rwa [List.map_append], by rw [hhead, htail, hnew], ?_⟩
  rw [recvBody]
  simp only [heq, hloop, Option.bind_eq_bind, Option.bind_some]
  split_ifs with hend
  · rw [Option.map_eq_bind]
    rfl
  · rfl

variable (info) in
/-- What a call does with a stream that has a whole header of the protocol. -/
theorem recv_header (hplace : Allocates place) (hmargin : margin < 2 ^ 31) (ht : t.NoFail)
    (h : buf.Holds margin asked) {header more : List UInt8}
    (hlen : header.length = sqtpHeaderSize) (hbytes : t.bytes = header ++ more)
    (hproto : (sqtpHeader header).proto = senComProtoSqtp) :
    ∃ (t' : Transport) (buf' : SenRbuf), t'.NoFail ∧ t'.bytes = more ∧
      buf'.Holds margin (header.map some) ∧
      sqtpHeaderSize ≤ buf'.tail - buf'.head ∧
      buf'.tail - buf'.head = clearedSize margin (buf.tail - buf.head) ∧
      senComSqtpRecv place margin info t buf =
        recvBody place margin t' buf' (sqtpHeader header) := by
  obtain ⟨cleared, hcleared, hempty, hroom, hsize⟩ := holds_cleared hplace hmargin h
  have hcurr : cleared.curr + sqtpHeaderSize ≤ cleared.tail := by
    have hnil := length_held hempty
    have := hempty.head_le
    have := hempty.curr_le
    rw [List.length_nil] at hnil
    omega
  obtain ⟨t', buf', hloop, ht', hdrop, hhead, htail, hheld⟩ := recvLoop_spec ht hempty hcurr
  have htake : t.bytes.take sqtpHeaderSize = header := by rw [hbytes, ← hlen, List.take_left]
  have hwhole : sqtpHeaderSize ≤ t.bytes.length := by
    rw [hbytes, List.length_append, hlen]
    omega
  rw [List.nil_append, htake] at hheld
  have hread : buf'.mem.read buf'.head sqtpHeaderSize = header := by
    have htext := hheld.text
    rw [length_held hheld, List.length_map, hlen] at htext
    exact (covers_some_iff.mp htext).symm
  refine ⟨t', buf', ht', ?_, hheld, by omega, by rw [hhead, htail, hsize], ?_⟩
  · rw [hdrop, hbytes, ← hlen, List.drop_left]
  · rw [senComSqtpRecv]
    simp only [hcleared, hloop, Option.bind_eq_bind, Option.bind_some, if_pos hwhole, hread, hproto]
    rfl

variable (info) in
/-- What a call does with a stream that has a whole message, up to the terminator. -/
theorem recv_message (hplace : Allocates place) (hmargin : margin < 2 ^ 31) (ht : t.NoFail)
    (h : buf.Holds margin asked) (m : Message) {more : List UInt8}
    (hbytes : t.bytes = m.bytes ++ more) :
    ∃ (t' : Transport) (buf' : SenRbuf), t'.NoFail ∧ t'.bytes = more ∧
      buf'.Holds margin (m.bytes.map some) ∧
      buf'.tail - buf'.head = grownSize margin (clearedSize margin (buf.tail - buf.head))
        (sqtpHeaderSize + m.body.length) ∧
      senComSqtpRecv place margin info t buf =
        (buf'.store buf'.curr [0]).map fun buf => (m.returned, t', buf) := by
  rw [Message.bytes, List.append_assoc] at hbytes
  obtain ⟨t₁, buf₁, ht₁, hbytes₁, hheld₁, hroom₁, hsize₁, hheader⟩ :=
    recv_header info hplace hmargin ht h m.length_header hbytes m.proto
  obtain ⟨t', buf', ht', hdrop, hheld, hsize, hbody⟩ :=
    recvBody_spec hplace hmargin ht₁ m.length_header hheld₁ hroom₁
      (sqtpHeader m.header) (by rw [m.size]; exact m.length_body_lt)
  rw [m.size, hbytes₁] at hdrop hheld hbody
  rw [m.size, hsize₁] at hsize
  rw [List.drop_left] at hdrop
  rw [List.take_left] at hheld
  refine ⟨t', buf', ht', hdrop, hheld, hsize, hheader.trans (hbody.trans ?_)⟩
  rw [if_pos (by rw [List.length_append]; exact Nat.le_add_right _ _)]
  rfl

variable (info) in
/-- **A message that does not just fill the room** is returned whole, with a terminator. -/
theorem recv_fits (hplace : Allocates place) (hmargin : margin < 2 ^ 31) (ht : t.NoFail)
    (h : buf.Holds margin asked) (m : Message) {more : List UInt8}
    (hbytes : t.bytes = m.bytes ++ more)
    (hfit : sqtpHeaderSize + m.body.length ≠ clearedSize margin (buf.tail - buf.head)) :
    ∃ (t' : Transport) (buf' : SenRbuf),
      senComSqtpRecv place margin info t buf = some (m.returned, t', buf') ∧
      t'.NoFail ∧ t'.bytes = more ∧ buf'.Holds margin (m.bytes.map some) ∧
      buf'.tail - buf'.head = grownSize margin (clearedSize margin (buf.tail - buf.head))
        (sqtpHeaderSize + m.body.length) ∧
      buf'.mem.read buf'.head (buf'.curr - buf'.head + 1) = m.bytes ++ [0] := by
  obtain ⟨t', buf', ht', hmore, hheld, hsize, hcall⟩ :=
    recv_message info hplace hmargin ht h m hbytes
  have hlen : m.bytes.length = sqtpHeaderSize + m.body.length := by
    rw [Message.bytes, List.length_append, m.length_header]
  have hused := length_held hheld
  rw [List.length_map, hlen] at hused
  have hlarge : sqtpHeaderSize + m.body.length <
      grownSize margin (clearedSize margin (buf.tail - buf.head))
        (sqtpHeaderSize + m.body.length) := by
    have hblock := le_rbufBlockSize (noWrap_message hmargin m.length_body_lt)
    unfold grownSize
    split_ifs <;> omega
  have hhead := hheld.head_le
  obtain ⟨stored, hstore, hstored, hsamehead, hsamecurr, hsametail, hnul⟩ :=
    hheld.store [0] (by rw [List.length_singleton]; omega)
  refine ⟨t', stored, by rw [hcall, hstore]; rfl, ht', hmore, hstored,
    by rw [hsamehead, hsametail, hsize], ?_⟩
  have htext := hstored.text
  rw [hsamehead, hsamecurr, covers_some_iff] at htext
  rw [hsamehead, hsamecurr, Memory.read_add, ← htext, Nat.add_sub_of_le hhead]
  exact congrArg _ hnul

variable (info) in
/-- A message that just fills the room has its terminator stored at `tail`. -/
theorem recv_overruns (hplace : Allocates place) (hmargin : margin < 2 ^ 31) (ht : t.NoFail)
    (h : buf.Holds margin asked) (m : Message) {more : List UInt8}
    (hbytes : t.bytes = m.bytes ++ more)
    (hfit : sqtpHeaderSize + m.body.length = clearedSize margin (buf.tail - buf.head)) :
    senComSqtpRecv place margin info t buf = none := by
  obtain ⟨t', buf', -, -, hheld, hsize, hcall⟩ :=
    recv_message info hplace hmargin ht h m hbytes
  have hused := length_held hheld
  rw [List.length_map, Message.bytes, List.length_append, m.length_header] at hused
  rw [← hfit, grownSize, if_neg (lt_irrefl _)] at hsize
  have hhead := hheld.head_le
  have hpos : 0 < sqtpHeaderSize := by decide
  rw [hcall, SenRbuf.store, if_neg (by rw [List.length_singleton]; omega)]
  rfl

variable (info) in
/-- **The end of the stream inside of a message** is an error. -/
theorem recv_cut (hplace : Allocates place) (hmargin : margin < 2 ^ 31) (ht : t.NoFail)
    (h : buf.Holds margin asked) (m : Message) (hcut : t.bytes <+: m.bytes)
    (hne : t.bytes ≠ m.bytes) :
    ∃ ret t' buf', senComSqtpRecv place margin info t buf = some (ret, t', buf') ∧
      ret.rc = .externalError := by
  have hshort : t.bytes.length < m.bytes.length :=
    lt_of_le_of_ne hcut.length_le fun heq => hne (hcut.eq_of_length heq)
  by_cases hheader : sqtpHeaderSize ≤ t.bytes.length
  · have hsplit : t.bytes = m.header ++ t.bytes.drop sqtpHeaderSize := by
      have hprefix : m.header <+: t.bytes :=
        List.prefix_of_prefix_length_le (List.prefix_append _ _) hcut
          (by rw [m.length_header]; exact hheader)
      obtain ⟨rest, hrest⟩ := hprefix
      rw [← hrest, ← m.length_header, List.drop_left]
    obtain ⟨t₁, buf₁, ht₁, hbytes₁, hheld₁, hroom₁, -, hcall⟩ :=
      recv_header info hplace hmargin ht h m.length_header hsplit m.proto
    obtain ⟨t', buf', -, -, -, -, hbody⟩ :=
      recvBody_spec hplace hmargin ht₁ m.length_header hheld₁ hroom₁
        (sqtpHeader m.header) (by rw [m.size]; exact m.length_body_lt)
    rw [Message.bytes, List.length_append, m.length_header] at hshort
    rw [m.size, hbytes₁, List.length_drop, if_neg (by omega)] at hbody
    exact ⟨_, t', buf', hcall.trans hbody, rfl⟩
  · obtain ⟨cleared, hcleared, hempty, hroom, -⟩ := holds_cleared hplace hmargin h
    have hcurr : cleared.curr + sqtpHeaderSize ≤ cleared.tail := by
      have hnil := length_held hempty
      have := hempty.head_le
      have := hempty.curr_le
      rw [List.length_nil] at hnil
      omega
    obtain ⟨t', buf', hloop, -⟩ := recvLoop_spec ht hempty hcurr
    refine ⟨⟨.externalError, SenComError.erecvHead.code, info⟩, t', buf', ?_, rfl⟩
    rw [senComSqtpRecv]
    simp only [hcleared, hloop, Option.bind_eq_bind, Option.bind_some, if_neg hheader]
    rfl

end Call

/-- What is seen after a call: what it returned, the text of the buffer with the byte behind it,
and what is left of the stream. -/
structure Receipt where
  returned : SqtpReturn
  held : List UInt8
  left : List UInt8

/-- So many calls on one buffer. -/
def recvAll (place : Nat → Nat → Option Nat) (margin info : Nat) :
    Nat → Transport → SenRbuf → Option (List Receipt × Transport × SenRbuf)
  | 0, t, buf => some ([], t, buf)
  | n + 1, t, buf => do
      let (returned, t, buf) ← senComSqtpRecv place margin info t buf
      let held := buf.mem.read buf.head (buf.curr - buf.head + 1)
      let (receipts, t', buf') ← recvAll place margin info n t buf
      return (⟨returned, held, t.bytes⟩ :: receipts, t', buf')

/-- The stream of `messages` and of the beginning `cut` of one more. -/
def streamOf (messages : List Message) (cut : List UInt8) : List UInt8 :=
  messages.flatMap Message.bytes ++ cut

/-- What is to be seen when `messages` are received one after the other. -/
def receiptsOf : List Message → List UInt8 → List Receipt
  | [], _ => []
  | m :: messages, cut =>
      ⟨m.returned, m.bytes ++ [0], streamOf messages cut⟩ :: receiptsOf messages cut

/-- **Exact framing.** The calls return the messages in order, each with its terminator and nothing
more taken from the stream, and the call behind the last one returns an error. -/
def Framed (place : Nat → Nat → Option Nat) (margin info : Nat) (messages : List Message)
    (cut : List UInt8) (t : Transport) (buf : SenRbuf) : Prop :=
  ∃ t' buf', recvAll place margin info messages.length t buf =
      some (receiptsOf messages cut, t', buf') ∧
    ∃ returned t'' buf'', senComSqtpRecv place margin info t' buf' =
        some (returned, t'', buf'') ∧ returned.rc ≠ .success

section Calls

variable {place : Nat → Nat → Option Nat} {margin info : Nat} {t : Transport} {buf : SenRbuf}
variable {asked : List (Option UInt8)}

/-- **Messages are framed exactly** and in bounds if and only if none of them is as long as the
room that its call finds. The connection does not fail, and `cut` is where the stream ends
inside of a message. -/
theorem framed_iff (hplace : Allocates place) (hmargin : margin < 2 ^ 31)
    (h : buf.Holds margin asked) (ht : t.NoFail) (messages : List Message) (last : Message)
    {cut : List UInt8} (hcut : cut <+: last.bytes) (hne : cut ≠ last.bytes)
    (hbytes : t.bytes = streamOf messages cut) :
    Framed place margin info messages cut t buf ↔
      NoExactFit margin (buf.tail - buf.head) (messages.map fun m => m.body.length) := by
  induction messages generalizing t buf asked with
  | nil =>
      rw [streamOf, List.flatMap_nil, List.nil_append] at hbytes
      subst hbytes
      obtain ⟨returned, t', buf', hcall, hrc⟩ :=
        recv_cut info hplace hmargin ht h last hcut hne
      exact iff_of_true ⟨t, buf, rfl, returned, t', buf', hcall, by simp [hrc]⟩ trivial
  | cons m messages ih =>
      have hsplit : t.bytes = m.bytes ++ streamOf messages cut := by
        rw [hbytes, streamOf, List.flatMap_cons, List.append_assoc]
        rfl
      by_cases hfit : sqtpHeaderSize + m.body.length = clearedSize margin (buf.tail - buf.head)
      · refine iff_of_false ?_ fun hno => hno.1 hfit
        rintro ⟨t', buf', hall, -⟩
        rw [List.length_cons, recvAll, recv_overruns info hplace hmargin ht h m hsplit hfit] at hall
        exact absurd hall (by simp)
      · obtain ⟨next, grown, hcall, hnext, hleft, hheld, hsize, hread⟩ :=
          recv_fits info hplace hmargin ht h m hsplit hfit
        have hrest := ih hheld hnext hleft
        rw [hsize] at hrest
        rw [List.map_cons, NoExactFit, ← hrest]
        constructor
        · rintro ⟨t', buf', hall, hlast⟩
          refine ⟨hfit, t', buf', ?_, hlast⟩
          rw [List.length_cons, recvAll, hcall] at hall
          rw [Option.bind_eq_bind, Option.bind_some] at hall
          obtain ⟨⟨receipts, t₂, buf₂⟩, hrec, heq⟩ := Option.bind_eq_some_iff.mp hall
          simp only [Option.pure_def, Option.some.injEq, Prod.mk.injEq, receiptsOf,
            List.cons.injEq] at heq
          obtain ⟨⟨-, hreceipts⟩, ht₂, hbuf₂⟩ := heq
          rw [hrec, hreceipts, ht₂, hbuf₂]
        · rintro ⟨-, t', buf', hall, hlast⟩
          refine ⟨t', buf', ?_, hlast⟩
          rw [List.length_cons, recvAll, hcall]
          simp only [Option.bind_eq_bind, Option.bind_some, hall, hread, hleft]
          rfl

/-- A header of the protocol for a body of `n` bytes, with `n` below 65536. -/
def plainHeader (n : Nat) : List UInt8 :=
  [UInt8.ofNat (n % 256), UInt8.ofNat (n / 256), 0, 0, 0, 0, 0x53, 0x51, 0, 0, 0, 0, 0, 0, 0, 0]

/-- A message with one byte. -/
def shortMessage : Message := ⟨plainHeader 1, [0x61], rfl, rfl, rfl⟩

/-- A message that fills a unit. -/
def unitMessage : Message :=
  ⟨plainHeader 4080, List.replicate 4080 0x61, rfl, rfl, by rw [List.length_replicate]; rfl⟩

theorem holds_blankRbuf : blankRbuf.Holds 0 [] :=
  ⟨le_rfl, le_rfl, Nat.two_pow_pos 64, fun _ => rfl, fun h => absurd rfl h, .nil⟩

/-- Two messages of one byte, delivered in parts, and the end of the stream. -/
theorem framed_iff_short :
    Framed onePlace 0 0 [shortMessage, shortMessage] []
      ⟨streamOf [shortMessage, shortMessage] [], [.bytes 5, .interrupted, .bytes 20]⟩ blankRbuf :=
  (framed_iff onePlace_allocates (by decide) holds_blankRbuf (by intro errno; simp)
    [shortMessage, shortMessage] shortMessage List.nil_prefix (by decide) rfl).mpr
    ⟨by decide, by decide, trivial⟩

/-- The first message received into a new buffer fills its unit, and the terminator is stored
behind the buffer. -/
theorem framed_iff_fails :
    ¬ Framed onePlace 0 0 [unitMessage] [] ⟨streamOf [unitMessage] [], []⟩ blankRbuf := by
  rintro ⟨t', buf', hall, -⟩
  have hbytes : streamOf [unitMessage] [] = unitMessage.bytes ++ [] := by simp [streamOf]
  have hoverrun := @recv_overruns _ _ 0 ⟨streamOf [unitMessage] [], []⟩ _ _
    onePlace_allocates (by decide) (by intro errno; simp) holds_blankRbuf unitMessage
    [] hbytes (by rw [unitMessage, List.length_replicate]; rfl)
  rw [List.length_singleton, recvAll, hoverrun] at hall
  exact absurd hall (by simp)

end Calls

end Senna.Com
