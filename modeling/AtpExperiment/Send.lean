/-
The sender (`send.rs`, `transfer`): handshake, spray rounds, feedback, as a
step relation over what its control stream does; the reader task and its
channel are part of the sender.

The environment chooses the results of system calls and the instants at which
batches are paced; everything else is computed as the source computes it.
`turns` is a history: which packets were generated for which block in which
round.
-/
import AtpExperiment.Datagram
import AtpExperiment.Feedback
import AtpExperiment.Lib.Duplex
import AtpExperiment.Udp

namespace AtpExperiment

open Octets Aead Duplex

/-- `ENCODER_CACHE`. -/
def encoderCache : Nat := 8

/-- `Rendezvous`: push, or pull on a data port already bound. -/
inductive Rendezvous
  | push
  | pull (port : UInt16)
  deriving DecidableEq, Repr

/-- What `transfer` is called with. The layout is that of the data. -/
structure SendCfg where
  plane : TxPlane
  rendezvous : Rendezvous
  rateMbps : Option ℚ
  maxRateMbps : ℚ
  overhead : ℚ
  testDrop : ℚ
  data : Octets
  sha256 : String
  layout : Layout
  transferTag : UInt64
  fileName : String
  fits : data.length = layout.fileSize.toNat

namespace SendCfg

/-- The wire size of a datagram. -/
def seg (cfg : SendCfg) : Nat := cfg.plane.wireLen (4 + cfg.layout.symbolSize.toNat)

/-- The datagrams of a full batch. -/
def maxSegs (cfg : SendCfg) : Nat := max 1 (min (maxGsoBytes / cfg.seg) maxGsoSegments)

/-- The Hello frame. -/
def hello (cfg : SendCfg) : Frame :=
  .hello version cfg.transferTag
    (match cfg.rendezvous with | .push => none | .pull port => some port)

/-- The Manifest frame. -/
def manifest (cfg : SendCfg) : Frame :=
  .manifest cfg.fileName cfg.layout.fileSize cfg.sha256 cfg.layout.blockSize cfg.layout.symbolSize
    cfg.layout.numBlocks

end SendCfg

/-- What `send::run` computes before it connects: the layout and the hex
digest of the file. -/
def prepare (sha : Sha256) (data : Octets) (blockSize : UInt32) (symbolSize : UInt16) :
    Checked (Except Error (Layout × String)) :=
  if data = [] then return .error (.transfer "refusing to send an empty file")
  else do
    let layout ← Layout.new (UInt64.ofNat data.length) blockSize symbolSize
    return .ok (layout, hexEncode (sha.digest data))

/-! ## Spray loop -/

/-- The locals of the spray loop. -/
structure Spray (rq : Raptorq) where
  plane : TxPlane
  batch : Octets
  batchSegs : Nat
  pacer : Pacer
  ctrl : Option RateController
  loss : LossEstimator
  receiverGone : Bool
  dropRng : UInt64
  acked : List Bool
  ackedCount : UInt32
  nextRepair : List UInt32
  packetsSent : UInt64
  bytesSent : UInt64
  encoders : List (UInt32 × rq.Encoder)
  round : UInt32

namespace Spray

variable {rq : Raptorq}

/-- The locals as the loop starts. -/
def new (rq : Raptorq) (cfg : SendCfg) : Spray rq where
  plane := cfg.plane
  batch := []
  batchSegs := 0
  pacer := match cfg.rateMbps with
    | some mbps => .newMbps mbps
    | none => .newBps Rate.startRateBps
  ctrl := match cfg.rateMbps with
    | some _ => none
    | none => some (.new cfg.seg cfg.maxRateMbps)
  loss := .new
  receiverGone := false
  dropRng := cfg.transferTag ||| 1
  acked := List.replicate cfg.layout.numBlocks.toNat false
  ackedCount := 0
  nextRepair := List.replicate cfg.layout.numBlocks.toNat 0
  packetsSent := 0
  bytesSent := 0
  encoders := []
  round := 0

/-- What a message makes `drain_feedback` do: go on, or return. -/
inductive Drained (rq : Raptorq)
  | go (v : Spray rq)
  | done (ok : Bool) (error : Option String)
  | err (e : Error)

/-- One message in `drain_feedback`. -/
def onFeedback (v : Spray rq) : Feedback → Checked (Drained rq)
  | .decoded i =>
    if v.acked[i.toNat]? = some false then do
      let ackedCount ← Checked.addU32 v.ackedCount 1
      return .go { v with acked := v.acked.set i.toNat true, ackedCount }
    else return .go v
  | .progress pkts span tMs =>
    if 0 < pkts then do
      let loss ← v.loss.update pkts (span.getD v.packetsSent)
      match v.ctrl with
      | none => return .go { v with loss }
      | some c => do
        let (r, c) ← c.onReport pkts span v.bytesSent tMs
        let pacer := match r with | some bps => v.pacer.setRateBps bps | none => v.pacer
        return .go { v with loss, ctrl := some c, pacer }
    else return .go v
  | .done ok error => return .done ok error
  | .closed got => return .err (.lost got)

/-- `pending`: the blocks not acked. -/
def pending (cfg : SendCfg) (v : Spray rq) : List UInt32 :=
  ((List.range cfg.layout.numBlocks.toNat).filter fun b => v.acked[b]? = some false).map
    UInt32.ofNat

/-- The number of repair symbols of a turn for a block of `k` source symbols. -/
def repairCount (cfg : SendCfg) (v : Spray rq) (k : Nat) : Checked UInt32 :=
  if v.round = 0 then do
    let frac ← v.loss.round0Frac (cfg.overhead / 100)
    return if ceilU32 (k * frac) < 2 then 2 else ceilU32 (k * frac)
  else do
    let base ← v.loss.repairFrac
    let frac := base * (1 + 25 / 100 * ((min v.round.toNat 4 : Nat) : ℚ))
    return if ceilU32 (k * frac) < 8 then 8 else ceilU32 (k * frac)

/-- The start of a block's turn: its packets, source symbols first in round
0, and the repair ids they used up. -/
def startTurn (cfg : SendCfg) (v : Spray rq) (b : UInt32) :
    Checked (List EncodingPacket × Spray rq) := do
  let k ← cfg.layout.sourceSymbols b
  let (enc, encoders) ← getEncoder v.encoders encoderCache b cfg.layout cfg.data
  match rq.blockEncoders enc, v.nextRepair[b.toNat]? with
  | blockEnc :: _, some next => do
    let n ← v.repairCount cfg k
    let repair ← rq.repairPackets blockEnc next.toNat n.toNat
    let next ← Checked.addU32 next n
    return ((if v.round = 0 then rq.sourcePackets blockEnc else []) ++ repair,
      { v with encoders, nextRepair := v.nextRepair.set b.toNat next })
  | _, _ => throw .outOfBounds

/-- What a packet of the spray loop did. -/
inductive Sent (rq : Raptorq)
  /-- A simulated drop: its number is burned. -/
  | dropped (v : Spray rq)
  /-- Appended to the batch; the AEAD call, in sealed mode. -/
  | queued (v : Spray rq) (sealed : Option Sealed)
  /-- `encode_into` failed. -/
  | failed (v : Spray rq)

/-- A packet that is not dropped: appended to the batch. -/
def encodePacket (enc : Encrypt) (cfg : SendCfg) (v : Spray rq) (b : UInt32)
    (pkt : EncodingPacket) : Checked (Sent rq) :=
  let r := v.plane.encodeInto enc cfg.transferTag b (pkt.payloadId ++ pkt.data) v.batch
  let v := { v with plane := r.plane, batch := r.out }
  if r.ok then do
    let bytesSent ← Checked.addU64 v.bytesSent (UInt64.ofNat cfg.seg)
    return .queued { v with bytesSent, batchSegs := v.batchSegs + 1 } r.sealed
  else return .failed v

/-- One packet: counted, then dropped by `--test-drop` or encoded. The
generator moves only when there is a drop rate. -/
def sendPacket (enc : Encrypt) (cfg : SendCfg) (v : Spray rq) (b : UInt32) (pkt : EncodingPacket) :
    Checked (Sent rq) := do
  let packetsSent ← Checked.addU64 v.packetsSent 1
  let unit := xorshiftUnit v.dropRng
  let v := { v with packetsSent, dropRng := if 0 < cfg.testDrop then unit.2 else v.dropRng }
  if 0 < cfg.testDrop ∧ unit.1 < cfg.testDrop then
    return .dropped { v with plane := v.plane.burnSeq }
  else v.encodePacket enc cfg b pkt

/-- `flush_batch` on a batch handed over at `now`, where sending it finds the
receiver gone or not. The assertion is that of `send_segments`. -/
def flushed (cfg : SendCfg) (v : Spray rq) (now : ℚ) (gone : Bool) : Checked (Spray rq) :=
  if v.batch = [] then return { v with batchSegs := 0, receiverGone := false }
  else if 0 < cfg.seg ∧ v.batch.length ≤ maxGsoBytes then
    let w := { v with batch := [], batchSegs := 0, receiverGone := gone }
    if gone then return w
    else do
      let (pacer, _) ← v.pacer.pace now v.batch.length
      return { w with pacer }
  else throw .assertion

end Spray

/-! ## Steps -/

/-- Which `drain_feedback` call. -/
inductive Resume
  | top
  | turn (todo : List UInt32)
  | settle (before : UInt32)
  deriving DecidableEq

/-- Where `transfer` is. -/
inductive SendPc
  | hello
  | helloAck
  | manifest (udpPort : Option UInt16)
  | manifestAck (udpPort : Option UInt16)
  | openPlane (udpPort : Option UInt16)
  | drain (k : Resume)
  /-- At the selection of `pending`. -/
  | select
  /-- Waiting for Done. -/
  | await
  /-- At the head of the loop over `pending`. -/
  | blocks (todo : List UInt32)
  | packets (b : UInt32) (pkts : List EncodingPacket) (todo : List UInt32)
  /-- Handing a full batch over, in the packet loop. -/
  | flush (b : UInt32) (pkts : List EncodingPacket) (todo : List UInt32)
  /-- Handing the last batch of a turn over. -/
  | flushTail (todo : List UInt32)
  | roundEnd
  /-- Ack-settle, before the sleep. -/
  | settle
  | returned (r : Except Error Unit)
  | panicked

/-- The feedback reader task. -/
inductive Reader
  | none
  | running
  /-- The last message is sent; the task's end of the channel is still open. -/
  | returning
  | stopped
  deriving DecidableEq

/-- The packets generated for a block in a round. -/
structure Turn where
  round : UInt32
  block : UInt32
  packets : List EncodingPacket

/-- The state of `transfer` and its reader task. -/
structure SendState (rq : Raptorq) where
  pc : SendPc
  v : Spray rq
  reader : Reader
  chan : List Feedback
  turns : List Turn

namespace SendState

variable {rq : Raptorq}

/-- `transfer` is entered; the locals of the loop have their first values. -/
def init (rq : Raptorq) (cfg : SendCfg) : SendState rq := ⟨.hello, .new rq cfg, .none, [], []⟩

/-- The transfer returns an error. -/
def fail (s : SendState rq) (e : Error) : SendState rq := { s with pc := .returned (.error e) }

/-- `done` is set: the transfer returns what the receiver reported. -/
def finish (s : SendState rq) (ok : Bool) (error : Option String) : SendState rq :=
  { s with pc := .returned <|
      if ok then .ok () else .error (.transfer (error.getD "receiver reported failure")) }

/-- After a turn, a round or a settle pause, when the channel is empty. -/
def resume (cfg : SendCfg) (v : Spray rq) : Resume → SendPc
  | .top => .select
  | .turn todo => .blocks todo
  | .settle before =>
    if v.ackedCount = before ∨ v.ackedCount = cfg.layout.numBlocks then .drain .top else .settle

/-- After the packets of a turn: the batch's tail, the end of the round when
the receiver is gone, or feedback. -/
def endTurn (v : Spray rq) (todo : List UInt32) : SendPc :=
  if v.receiverGone = false ∧ 0 < v.batchSegs then .flushTail todo
  else if v.receiverGone then .roundEnd
  else .drain (.turn todo)

end SendState

variable {rq : Raptorq}

/-- Where a frame is read by `transfer` itself. -/
def SendPc.reads : SendPc → Bool
  | .helloAck | .manifestAck _ => true
  | _ => false

/-- `write_frame(..).await?` before `pc`. -/
def SendPc.ifOk (ok : Bool) (pc : SendPc) : SendPc := if ok then pc else .returned (.error .io)

/-- Where a system call (connect or accept, send) can fail. -/
def SendPc.calls : SendPc → Bool
  | .openPlane _ | .flush .. | .flushTail _ => true
  | _ => false

/-- In `flush_batch`. -/
def SendPc.flushes : SendPc → Bool
  | .flush .. | .flushTail _ => true
  | _ => false

/-- One step of `transfer` or of its reader task: an act on the control
stream, and the record of an AEAD call. -/
inductive SendStep (enc : Encrypt) (cfg : SendCfg) :
    SendState rq → Act Frame → Option Sealed → SendState rq → Prop
  | readFail {s : SendState rq} (h : s.pc.reads = true) :
    SendStep enc cfg s .readFail none (s.fail .io)
  | callFail {s : SendState rq} (h : s.pc.calls = true)
      (hlen : s.pc.flushes = true → s.v.batch.length ≤ maxGsoBytes) :
    SendStep enc cfg s .tau none (s.fail .io)
  | hello {s : SendState rq} {ok : Bool} (h : s.pc = .hello) :
    SendStep enc cfg s (.write cfg.hello ok) none { s with pc := .ifOk ok .helloAck }
  | helloAck {s : SendState rq} {port : Option UInt16} (h : s.pc = .helloAck) :
    SendStep enc cfg s (.read (.helloAck port)) none { s with pc := .manifest port }
  | helloAckOther {s : SendState rq} {f : Frame} (h : s.pc = .helloAck)
      (hf : ∀ port, f ≠ .helloAck port) :
    SendStep enc cfg s (.read f) none (s.fail (.expected "HelloAck" f))
  | manifest {s : SendState rq} {port : Option UInt16} {ok : Bool} (h : s.pc = .manifest port) :
    SendStep enc cfg s (.write cfg.manifest ok) none { s with pc := .ifOk ok (.manifestAck port) }
  | manifestAck {s : SendState rq} {port : Option UInt16} (h : s.pc = .manifestAck port) :
    SendStep enc cfg s (.read .manifestAck) none
      { s with pc := .openPlane port, reader := .running }
  | manifestAckOther {s : SendState rq} {port : Option UInt16} {f : Frame}
      (h : s.pc = .manifestAck port) (hf : f ≠ .manifestAck) :
    SendStep enc cfg s (.read f) none (s.fail (.expected "ManifestAck" f))
  -- The reader task.
  | readerRead {s : SendState rq} {f : Frame} (h : s.reader = .running) :
    SendStep enc cfg s (.read f) none { s with
      chan := s.chan ++ [(readerTask f).1]
      reader := if (readerTask f).2 then .running else .returning }
  | readerFail {s : SendState rq} (h : s.reader = .running) :
    SendStep enc cfg s .readFail none { s with
      chan := s.chan ++ [.closed none]
      reader := .returning }
  | readerReturn {s : SendState rq} (h : s.reader = .returning) :
    SendStep enc cfg s .tau none { s with reader := .stopped }
  -- The symbol plane.
  | openPush {s : SendState rq} {port : UInt16} (h : s.pc = .openPlane (some port))
      (hr : cfg.rendezvous = .push) :
    SendStep enc cfg s .tau none { s with pc := .drain .top }
  | openPushNone {s : SendState rq} (h : s.pc = .openPlane none) (hr : cfg.rendezvous = .push) :
    SendStep enc cfg s .tau none (s.fail (.protocol "push mode: receiver advertised no UDP port"))
  | openPull {s : SendState rq} {p : Option UInt16} {port : UInt16} (h : s.pc = .openPlane p)
      (hr : cfg.rendezvous = .pull port) :
    SendStep enc cfg s .tau none { s with pc := .drain .top }
  | openPullTimeout {s : SendState rq} {p : Option UInt16} {port : UInt16}
      (h : s.pc = .openPlane p) (hr : cfg.rendezvous = .pull port) :
    SendStep enc cfg s .tau none (s.fail (.transfer
      "timed out waiting for receiver to open the data flow (NAT/firewall blocking?)"))
  -- `drain_feedback`, one `try_recv` at a time.
  | drainGo {s : SendState rq} {k : Resume} {m : Feedback} {ms : List Feedback} {v : Spray rq}
      (h : s.pc = .drain k) (hm : s.chan = m :: ms) (hv : s.v.onFeedback m = .ok (.go v)) :
    SendStep enc cfg s .tau none { s with v, chan := ms }
  | drainDone {s : SendState rq} {k : Resume} {m : Feedback} {ms : List Feedback} {ok : Bool}
      {error : Option String} (h : s.pc = .drain k) (hm : s.chan = m :: ms)
      (hv : s.v.onFeedback m = .ok (.done ok error)) :
    SendStep enc cfg s .tau none ({ s with chan := ms }.finish ok error)
  | drainErr {s : SendState rq} {k : Resume} {m : Feedback} {ms : List Feedback} {e : Error}
      (h : s.pc = .drain k) (hm : s.chan = m :: ms) (hv : s.v.onFeedback m = .ok (.err e)) :
    SendStep enc cfg s .tau none ({ s with chan := ms }.fail e)
  | drainPanic {s : SendState rq} {k : Resume} {m : Feedback} {ms : List Feedback} {p : Panic}
      (h : s.pc = .drain k) (hm : s.chan = m :: ms) (hv : s.v.onFeedback m = .error p) :
    SendStep enc cfg s .tau none { s with chan := ms, pc := .panicked }
  | drainEmpty {s : SendState rq} {k : Resume} (h : s.pc = .drain k) (hm : s.chan = [])
      (hr : s.reader ≠ .stopped) :
    SendStep enc cfg s .tau none { s with pc := SendState.resume cfg s.v k }
  | drainClosed {s : SendState rq} {k : Resume} (h : s.pc = .drain k) (hm : s.chan = [])
      (hr : s.reader = .stopped) :
    SendStep enc cfg s .tau none (s.fail (.protocol "control connection lost"))
  -- A round.
  | selectAwait {s : SendState rq} (h : s.pc = .select)
      (hp : s.v.pending cfg = [] ∨ s.v.receiverGone = true) :
    SendStep enc cfg s .tau none { s with pc := .await }
  | selectBlocks {s : SendState rq} (h : s.pc = .select)
      (hp : ¬ (s.v.pending cfg = [] ∨ s.v.receiverGone = true)) :
    SendStep enc cfg s .tau none { s with pc := .blocks (s.v.pending cfg) }
  | awaitDone {s : SendState rq} {ok : Bool} {error : Option String} {ms : List Feedback}
      (h : s.pc = .await) (hm : s.chan = .done ok error :: ms) :
    SendStep enc cfg s .tau none ({ s with chan := ms }.finish ok error)
  | awaitOther {s : SendState rq} {m : Feedback} {ms : List Feedback} (h : s.pc = .await)
      (hm : s.chan = m :: ms) (hd : ∀ ok error, m ≠ .done ok error) :
    SendStep enc cfg s .tau none { s with chan := ms, pc := .drain .top }
  | awaitFail {s : SendState rq} (h : s.pc = .await) (hm : s.chan = []) :
    SendStep enc cfg s .tau none (s.fail (.protocol "receiver never sent Done"))
  | skip {s : SendState rq} {b : UInt32} {todo : List UInt32} (h : s.pc = .blocks (b :: todo))
      (ha : s.v.acked[b.toNat]? = some true) :
    SendStep enc cfg s .tau none { s with pc := .blocks todo }
  | turn {s : SendState rq} {b : UInt32} {todo : List UInt32} {pkts : List EncodingPacket}
      {v : Spray rq} (h : s.pc = .blocks (b :: todo)) (ha : s.v.acked[b.toNat]? ≠ some true)
      (hv : s.v.startTurn cfg b = .ok (pkts, v)) :
    SendStep enc cfg s .tau none { s with
      v
      pc := .packets b pkts todo
      turns := s.turns ++ [⟨s.v.round, b, pkts⟩] }
  | turnPanic {s : SendState rq} {b : UInt32} {todo : List UInt32} {p : Panic}
      (h : s.pc = .blocks (b :: todo)) (ha : s.v.acked[b.toNat]? ≠ some true)
      (hv : s.v.startTurn cfg b = .error p) :
    SendStep enc cfg s .tau none { s with pc := .panicked }
  | blocksEnd {s : SendState rq} (h : s.pc = .blocks []) :
    SendStep enc cfg s .tau none { s with pc := .roundEnd }
  -- A turn.
  | dropped {s : SendState rq} {b : UInt32} {p : EncodingPacket} {ps : List EncodingPacket}
      {todo : List UInt32} {v : Spray rq} (h : s.pc = .packets b (p :: ps) todo)
      (hv : s.v.sendPacket enc cfg b p = .ok (.dropped v)) :
    SendStep enc cfg s .tau none { s with v, pc := .packets b ps todo }
  | queued {s : SendState rq} {b : UInt32} {p : EncodingPacket} {ps : List EncodingPacket}
      {todo : List UInt32} {v : Spray rq} {sealed : Option Sealed}
      (h : s.pc = .packets b (p :: ps) todo)
      (hv : s.v.sendPacket enc cfg b p = .ok (.queued v sealed)) :
    SendStep enc cfg s .tau sealed { s with
      v
      pc := if v.batchSegs = cfg.maxSegs then .flush b ps todo else .packets b ps todo }
  | encodeFail {s : SendState rq} {b : UInt32} {p : EncodingPacket} {ps : List EncodingPacket}
      {todo : List UInt32} {v : Spray rq} (h : s.pc = .packets b (p :: ps) todo)
      (hv : s.v.sendPacket enc cfg b p = .ok (.failed v)) :
    SendStep enc cfg s .tau none ({ s with v }.fail .io)
  | packetPanic {s : SendState rq} {b : UInt32} {p : EncodingPacket} {ps : List EncodingPacket}
      {todo : List UInt32} {e : Panic} (h : s.pc = .packets b (p :: ps) todo)
      (hv : s.v.sendPacket enc cfg b p = .error e) :
    SendStep enc cfg s .tau none { s with pc := .panicked }
  | packetsEnd {s : SendState rq} {b : UInt32} {todo : List UInt32}
      (h : s.pc = .packets b [] todo) :
    SendStep enc cfg s .tau none { s with pc := SendState.endTurn s.v todo }
  | flush {s : SendState rq} {b : UInt32} {ps : List EncodingPacket} {todo : List UInt32}
      {v : Spray rq} (h : s.pc = .flush b ps todo) (now : Instant) (gone : Bool)
      (hg : gone = true → s.v.batch ≠ []) (hv : s.v.flushed cfg now.secs gone = .ok v) :
    SendStep enc cfg s .tau none { s with
      v
      pc := if gone then .roundEnd else .packets b ps todo }
  | flushTail {s : SendState rq} {todo : List UInt32} {v : Spray rq} (h : s.pc = .flushTail todo)
      (now : Instant) (gone : Bool) (hg : gone = true → s.v.batch ≠ [])
      (hv : s.v.flushed cfg now.secs gone = .ok v) :
    SendStep enc cfg s .tau none { s with
      v
      pc := if gone then .roundEnd else .drain (.turn todo) }
  | flushPanic {s : SendState rq} {p : Panic} (h : s.pc.flushes = true) (now : Instant)
      (gone : Bool) (hv : s.v.flushed cfg now.secs gone = .error p) :
    SendStep enc cfg s .tau none { s with pc := .panicked }
  | roundEnd {s : SendState rq} {round : UInt32} (h : s.pc = .roundEnd)
      (hr : Checked.addU32 s.v.round 1 = .ok round) :
    SendStep enc cfg s .tau none { s with v := { s.v with round }, pc := .settle }
  | roundPanic {s : SendState rq} {p : Panic} (h : s.pc = .roundEnd)
      (hr : Checked.addU32 s.v.round 1 = .error p) :
    SendStep enc cfg s .tau none { s with pc := .panicked }
  | settle {s : SendState rq} (h : s.pc = .settle) :
    SendStep enc cfg s .tau none { s with pc := .drain (.settle s.v.ackedCount) }

end AtpExperiment
