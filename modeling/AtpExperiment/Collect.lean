/-
The receiver's symbol collection (`recv.rs`): the locals of `handle_transfer`
that the `recv_batch` closure captures, the closure, and the loop around it.

The environment decides what each positioned write does: all of it, or a
failure after some bytes. `opened` and `writes` are histories: the buffers
that opened, and the writes that succeeded.
-/
import AtpExperiment.Datagram
import AtpExperiment.Wire

namespace AtpExperiment

open Octets Aead

/-- `Block`. -/
inductive Block (D : Type)
  | pending (slot : Option D)
  | done

/-- Whether `write_all_at` succeeds, or after how many bytes it fails. -/
inductive WriteOutcome
  | ok
  | fail (written : Nat)
  deriving DecidableEq, Repr

/-- A successful `write_all_at`. -/
structure Written where
  block : UInt32
  start : Nat
  data : Octets
  deriving DecidableEq

/-- The locals of the collection loop. -/
structure Collect (rq : Raptorq) where
  plane : RxPlane
  blocks : List (Block rq.Decoder)
  decoded : UInt32
  pkts : UInt64
  latePkts : UInt64
  pendingAcks : List UInt32
  ioErr : Bool
  ticks : UInt32
  file : Octets
  opened : List Octets
  writes : List Written

namespace Collect

variable {rq : Raptorq}

/-- The locals as the loop starts, on a file of `l.fileSize` zero bytes. -/
def new (rq : Raptorq) (plane : RxPlane) (l : Layout) : Collect rq where
  plane
  blocks := List.replicate l.numBlocks.toNat (.pending none)
  decoded := 0
  pkts := 0
  latePkts := 0
  pendingAcks := []
  ioErr := false
  ticks := 0
  file := List.replicate l.fileSize.toNat 0
  opened := []
  writes := []

/-- `slot.get_or_insert_with(|| Decoder::new(layout.oti(b)))`. -/
def decoderOf (l : Layout) (b : UInt32) : Option rq.Decoder → Checked rq.Decoder
  | some d => return d
  | none => do
    let oti ← l.oti rq b
    rq.newDecoder oti

/-- What follows a decoded block: the assertion on its length, the write, and
on success the bookkeeping. -/
def store (l : Layout) (c : Collect rq) (b : UInt32) (data : Octets) (w : WriteOutcome) :
    Checked (Collect rq) := do
  let len ← l.blockLen b
  if data.length ≠ len then throw .assertion
  let r ← l.range b
  match w with
  | .fail n => return { c with file := writeAt c.file r.start (data.take n), ioErr := true }
  | .ok =>
    let decoded ← Checked.addU32 c.decoded 1
    return { c with
      file := writeAt c.file r.start data
      writes := c.writes ++ [⟨b, r.start, data⟩]
      blocks := c.blocks.set b.toNat .done
      decoded
      pendingAcks := c.pendingAcks ++ [b] }

/-- What follows a call of `Decoder::decode` on block `b`. -/
def onDecoded (l : Layout) (c : Collect rq) (b : UInt32) (dec : rq.Decoder) (out : Option Octets)
    (w : WriteOutcome) : Checked (Collect rq) :=
  let c := { c with blocks := c.blocks.set b.toNat (.pending (some dec)) }
  match out with
  | none => return c
  | some data => c.store l b data w

/-- A payload for a block in range. -/
def onSymbol (l : Layout) (c : Collect rq) (b : UInt32) (payload : Octets) (w : WriteOutcome) :
    Checked (Collect rq) :=
  match c.blocks[b.toNat]? with
  | none => throw .outOfBounds
  | some .done => do
    let latePkts ← Checked.addU64 c.latePkts 1
    return { c with latePkts }
  | some (.pending slot) => do
    let dec ← decoderOf l b slot
    let packet ← EncodingPacket.deserialize payload
    let (out, dec) ← rq.decode dec packet
    c.onDecoded l b dec out w

/-- What the closure does with a payload that opened. -/
def onPayload (l : Layout) (c : Collect rq) (b : UInt32) (payload : Octets) (w : WriteOutcome) :
    Checked (Collect rq) :=
  if payload.length < 4 then return c
  else do
    let pkts ← Checked.addU64 c.pkts 1
    let c := { c with pkts }
    if l.numBlocks ≤ b then return c
    else c.onSymbol l b payload w

/-- The `recv_batch` closure. -/
def onDatagram (dec : Decrypt) (l : Layout) (tag : UInt64) (c : Collect rq) (dgram : Octets)
    (w : WriteOutcome) : Checked (Collect rq) := do
  let (r, plane) ← c.plane.open dec tag dgram
  match r with
  | none => return { c with plane }
  | some (b, payload) =>
    onPayload l { c with plane, opened := c.opened ++ [dgram] } b payload w

/-- The frame a 100 ms tick writes: none before the first packet. -/
def report (c : Collect rq) (tMs : UInt64) : Checked (Option Frame) :=
  if 0 < c.pkts then do
    let span ← c.plane.seqSpan
    return some (.progress c.pkts span tMs)
  else return none

/-- A 100 ms tick: counted, then reported. Every fifth also prints. -/
def onTick (c : Collect rq) (tMs : UInt64) : Checked (Option Frame × Collect rq) := do
  let ticks ← Checked.addU32 c.ticks 1
  let f ← c.report tMs
  return (f, { c with ticks })

end Collect

/-! ## Loop -/

/-- What the collection loop is given. -/
inductive LoopEvent
  /-- A datagram of a `recv_batch`, and what a write it causes would do. -/
  | datagram (dgram : Octets) (w : WriteOutcome)
  /-- `recv_batch` returned. -/
  | batchEnd
  | tick (tMs : UInt64)
  deriving DecidableEq

/-- What the loop does that can be seen: the result of an open, a frame. -/
inductive LoopObs
  | opened (r : Option (UInt32 × Octets))
  | wrote (f : Frame)
  deriving DecidableEq

/-- Where the loop is. -/
inductive Loop (rq : Raptorq)
  | running (c : Collect rq)
  /-- All blocks are decoded. -/
  | left (c : Collect rq)
  /-- A write failed; `handle_transfer` returns its error. -/
  | failed (c : Collect rq)
  | panicked (p : Panic)

namespace Loop

variable {rq : Raptorq}

/-- One event. After a batch a write error ends the transfer, and the pending
acks are written otherwise. -/
def step (dec : Decrypt) (l : Layout) (tag : UInt64) : Loop rq → LoopEvent → List LoopObs × Loop rq
  | .running c, .datagram dgram w =>
    match c.plane.open dec tag dgram with
    | .error p => ([], .panicked p)
    | .ok (r, _) =>
      match c.onDatagram dec l tag dgram w with
      | .error p => ([.opened r], .panicked p)
      | .ok c => ([.opened r], .running c)
  | .running c, .batchEnd =>
    if c.ioErr then ([], .failed c)
    else
      (c.pendingAcks.map fun b => .wrote (.blockDecoded b),
        if c.decoded < l.numBlocks then .running { c with pendingAcks := [] }
        else .left { c with pendingAcks := [] })
  | .running c, .tick tMs =>
    match c.onTick tMs with
    | .error p => ([], .panicked p)
    | .ok (f, c) => (f.toList.map .wrote, .running c)
  | s, _ => ([], s)

/-- The loop over a sequence of events. -/
def run (dec : Decrypt) (l : Layout) (tag : UInt64) :
    Loop rq → List LoopEvent → List LoopObs × Loop rq
  | s, [] => ([], s)
  | s, e :: es =>
    let (obs, s) := step dec l tag s e
    let (rest, s) := run dec l tag s es
    (obs ++ rest, s)

end Loop

end AtpExperiment
