/-
The receiver (`recv.rs`, `handle_transfer`): handshake, collection loop,
verification, as a step relation over what its control stream does.

The environment chooses the results of system calls, the datagrams of each
batch and the times of the ticks. `live` and `actual` keep, after the
transfer has returned, what its locals last were; `wrote` is the history of
the frames handed to `write_frame`, `reports` that of the frames of the ticks.
-/
import AtpExperiment.Collect
import AtpExperiment.Lib.Duplex

namespace AtpExperiment

open Octets Aead Duplex

/-- The keepalive task of pull mode. -/
inductive Keepalive
  | none
  | running
  | aborted
  deriving DecidableEq, Repr

/-- What an accepted Manifest gives. -/
structure Accepted where
  sha256 : String
  layout : Layout
  deriving DecidableEq

/-- Where `handle_transfer` is. -/
inductive RecvPc
  | hello
  /-- Another version: a failing Done is written, its result ignored. -/
  | reject (msg : String)
  | bind (transferTag : UInt64) (dataPort : Option UInt16)
  | helloAck (transferTag : UInt64) (udpPort : Option UInt16)
  | manifest (transferTag : UInt64)
  | create (transferTag : UInt64) (m : Accepted)
  | manifestAck
  /-- At the head of the collection loop. -/
  | collect
  /-- Inside `recv_batch`. -/
  | batch
  /-- Writing the acks of a batch. -/
  | acks
  | sync
  | hash
  /-- Writing Done. -/
  | report
  | returned (r : Except Error Unit)
  | panicked
  deriving DecidableEq

/-- The transfer's values from the moment the output file exists. -/
structure Live (rq : Raptorq) where
  transferTag : UInt64
  sha256 : String
  layout : Layout
  col : Collect rq

/-- A frame a tick wrote, and the buffers opened before it. -/
structure Report where
  frame : Frame
  opened : List Octets

/-- The state of `handle_transfer`. -/
structure RecvState (rq : Raptorq) where
  pc : RecvPc
  keepalive : Keepalive
  /-- The UDP port bound, and the sender port the flow was opened to. -/
  udpPort : Option UInt16
  flowTo : Option UInt16
  /-- Whether the output path was created or truncated. -/
  created : Bool
  live : Option (Live rq)
  actual : Option String
  wrote : List Frame
  reports : List Report

namespace RecvState

/-- `handle_transfer` is entered. -/
def init (rq : Raptorq) : RecvState rq := ⟨.hello, .none, none, none, false, none, none, [], []⟩

end RecvState

/-! ## Frames read -/

/-- The message of a version mismatch. -/
def versionMismatch (peer : UInt32) : String :=
  "version mismatch: peer " ++ toString peer ++ ", ours " ++ toString version

/-- The Hello branch. -/
def onHello : Frame → RecvPc
  | .hello v transferTag dataPort =>
    if v ≠ version then .reject (versionMismatch v) else .bind transferTag dataPort
  | f => .returned (.error (.expected "Hello" f))

/-- The Manifest branch: a protocol error, or the layout it describes. -/
def acceptManifest (fileSize : UInt64) (sha256 : String) (blockSize : UInt32)
    (symbolSize : UInt16) (numBlocks : UInt32) : Checked (Except Error Accepted) :=
  if fileSize = 0 ∨ blockSize = 0 ∨ symbolSize = 0 then
    return .error (.protocol "degenerate manifest")
  else do
    let layout ← Layout.new fileSize blockSize symbolSize
    if layout.numBlocks ≠ numBlocks then
      return .error (.protocol ("block count mismatch: manifest " ++ toString numBlocks ++
        ", computed " ++ toString layout.numBlocks))
    else return .ok ⟨sha256, layout⟩

/-- The second frame. -/
def onManifest (transferTag : UInt64) : Frame → RecvPc
  | .manifest _ fileSize sha256 blockSize symbolSize numBlocks =>
    match acceptManifest fileSize sha256 blockSize symbolSize numBlocks with
    | .error _ => .panicked
    | .ok (.error e) => .returned (.error e)
    | .ok (.ok m) => .create transferTag m
  | f => .returned (.error (.expected "Manifest" f))

/-! ## Verification -/

/-- `sha256_file` over the chunks its reads returned. -/
def sha256File (sha : Sha256) (chunks : List Octets) : String :=
  hexEncode (sha.finalize (chunks.foldl sha.update sha.new))

/-- The reads of `sha256_file` on a file: non-empty chunks of at most 64 KiB
that make up its contents. -/
def ReadsOf (file : Octets) (chunks : List Octets) : Prop :=
  chunks.flatten = file ∧ ∀ c ∈ chunks, c ≠ [] ∧ c.length ≤ 65536

/-- The error of the final Done frame. -/
def verdict (sha256 actual : String) : Option String :=
  if actual = sha256 then none
  else some ("sha256 mismatch: expected " ++ sha256 ++ ", got " ++ actual)

/-! ## Steps -/

variable {rq : Raptorq}

/-- `h.abort()`. -/
def Keepalive.abort : Keepalive → Keepalive
  | .running => .aborted
  | k => k

namespace RecvState

/-- The collection state replaced. -/
def setCol (s : RecvState rq) (x : Live rq) (c : Collect rq) : RecvState rq :=
  { s with live := some { x with col := c } }

/-- The transfer returns an error. -/
def fail (s : RecvState rq) (e : Error) : RecvState rq := { s with pc := .returned (.error e) }

/-- A frame was handed to `write_frame`, and the transfer is at `pc`. -/
def wroteTo (s : RecvState rq) (f : Frame) (pc : RecvPc) : RecvState rq :=
  { s with wrote := s.wrote ++ [f], pc }

end RecvState

/-- Where a frame is read. -/
def RecvPc.reads : RecvPc → Bool
  | .hello | .manifest _ => true
  | _ => false

/-- `write_frame(..).await?` before `pc`. -/
def RecvPc.ifOk (ok : Bool) (pc : RecvPc) : RecvPc := if ok then pc else .returned (.error .io)

/-- Where a system call (bind and clone, create, sync, read) can fail. -/
def RecvPc.calls : RecvPc → Bool
  | .bind .. | .create .. | .sync | .hash => true
  | _ => false

/-- One step of `handle_transfer`, on the plane it was given, with the AEAD
in force and the hash. -/
inductive RecvStep (sha : Sha256) (plane : RxPlane) (dec : Decrypt) :
    RecvState rq → Act Frame → RecvState rq → Prop
  | readFail {s : RecvState rq} (h : s.pc.reads = true) :
    RecvStep sha plane dec s .readFail (s.fail .io)
  | callFail {s : RecvState rq} (h : s.pc.calls = true) :
    RecvStep sha plane dec s .tau (s.fail .io)
  | hello {s : RecvState rq} {f : Frame} (h : s.pc = .hello) :
    RecvStep sha plane dec s (.read f) { s with pc := onHello f }
  | reject {s : RecvState rq} {msg : String} {ok : Bool} (h : s.pc = .reject msg) :
    RecvStep sha plane dec s (.write (.done false (some msg)) ok)
      (s.wroteTo (.done false (some msg)) (.returned (.error (.protocol msg))))
  | bindPush {s : RecvState rq} {t : UInt64} (h : s.pc = .bind t none) (port : UInt16) :
    RecvStep sha plane dec s .tau { s with udpPort := some port, pc := .helloAck t (some port) }
  | bindPull {s : RecvState rq} {t : UInt64} {sport : UInt16} (h : s.pc = .bind t (some sport))
      (port : UInt16) :
    RecvStep sha plane dec s .tau { s with
      udpPort := some port
      flowTo := some sport
      keepalive := .running
      pc := .helloAck t none }
  | helloAck {s : RecvState rq} {t : UInt64} {port : Option UInt16} {ok : Bool}
      (h : s.pc = .helloAck t port) :
    RecvStep sha plane dec s (.write (.helloAck port) ok)
      (s.wroteTo (.helloAck port) (.ifOk ok (.manifest t)))
  | manifest {s : RecvState rq} {t : UInt64} {f : Frame} (h : s.pc = .manifest t) :
    RecvStep sha plane dec s (.read f) { s with pc := onManifest t f }
  | create {s : RecvState rq} {t : UInt64} {m : Accepted} (h : s.pc = .create t m) :
    RecvStep sha plane dec s .tau { s with
      created := true
      live := some ⟨t, m.sha256, m.layout, .new rq plane m.layout⟩
      pc := .manifestAck }
  | setLenFail {s : RecvState rq} {t : UInt64} {m : Accepted} (h : s.pc = .create t m) :
    RecvStep sha plane dec s .tau { s.fail .io with created := true }
  | manifestAck {s : RecvState rq} {ok : Bool} (h : s.pc = .manifestAck) :
    RecvStep sha plane dec s (.write .manifestAck ok)
      (s.wroteTo .manifestAck (.ifOk ok .collect))
  | batch {s : RecvState rq} {x : Live rq} (h : s.pc = .collect) (hx : s.live = some x)
      (hd : x.col.decoded < x.layout.numBlocks) :
    RecvStep sha plane dec s .tau { s with pc := .batch }
  | recvFail {s : RecvState rq} {x : Live rq} (h : s.pc = .collect) (hx : s.live = some x)
      (hd : x.col.decoded < x.layout.numBlocks) :
    RecvStep sha plane dec s .tau (s.fail .io)
  | datagram {s : RecvState rq} {x : Live rq} {c : Collect rq} (h : s.pc = .batch)
      (hx : s.live = some x) (dgram : Octets) (w : WriteOutcome)
      (hc : x.col.onDatagram dec x.layout x.transferTag dgram w = .ok c) :
    RecvStep sha plane dec s .tau (s.setCol x c)
  | datagramPanic {s : RecvState rq} {x : Live rq} {p : Panic} (h : s.pc = .batch)
      (hx : s.live = some x) (dgram : Octets) (w : WriteOutcome)
      (hc : x.col.onDatagram dec x.layout x.transferTag dgram w = .error p) :
    RecvStep sha plane dec s .tau { s with pc := .panicked }
  | batchEnd {s : RecvState rq} {x : Live rq} (h : s.pc = .batch) (hx : s.live = some x)
      (he : x.col.ioErr = false) :
    RecvStep sha plane dec s .tau { s with pc := .acks }
  | batchErr {s : RecvState rq} {x : Live rq} (h : s.pc = .batch) (hx : s.live = some x)
      (he : x.col.ioErr = true) :
    RecvStep sha plane dec s .tau (s.fail .io)
  | ack {s : RecvState rq} {x : Live rq} {b : UInt32} {bs : List UInt32} {ok : Bool}
      (h : s.pc = .acks) (hx : s.live = some x) (hb : x.col.pendingAcks = b :: bs) :
    RecvStep sha plane dec s (.write (.blockDecoded b) ok)
      ((s.wroteTo (.blockDecoded b) (.ifOk ok .acks)).setCol x { x.col with pendingAcks := bs })
  | acked {s : RecvState rq} {x : Live rq} (h : s.pc = .acks) (hx : s.live = some x)
      (hb : x.col.pendingAcks = []) :
    RecvStep sha plane dec s .tau { s with pc := .collect }
  | tick {s : RecvState rq} {x : Live rq} {c : Collect rq} (h : s.pc = .collect)
      (hx : s.live = some x) (hd : x.col.decoded < x.layout.numBlocks) (tMs : UInt64) {f : Frame}
      {ok : Bool} (hf : x.col.onTick tMs = .ok (some f, c)) :
    RecvStep sha plane dec s (.write f ok)
      { (s.wroteTo f (.ifOk ok .collect)).setCol x c with
        reports := s.reports ++ [⟨f, x.col.opened⟩] }
  | tickQuiet {s : RecvState rq} {x : Live rq} {c : Collect rq} (h : s.pc = .collect)
      (hx : s.live = some x) (hd : x.col.decoded < x.layout.numBlocks) (tMs : UInt64)
      (hf : x.col.onTick tMs = .ok (none, c)) :
    RecvStep sha plane dec s .tau (s.setCol x c)
  | tickPanic {s : RecvState rq} {x : Live rq} {p : Panic} (h : s.pc = .collect)
      (hx : s.live = some x) (hd : x.col.decoded < x.layout.numBlocks) (tMs : UInt64)
      (hf : x.col.onTick tMs = .error p) :
    RecvStep sha plane dec s .tau { s with pc := .panicked }
  | leave {s : RecvState rq} {x : Live rq} (h : s.pc = .collect) (hx : s.live = some x)
      (hd : ¬ x.col.decoded < x.layout.numBlocks) :
    RecvStep sha plane dec s .tau { s with pc := .sync, keepalive := s.keepalive.abort }
  | sync {s : RecvState rq} (h : s.pc = .sync) :
    RecvStep sha plane dec s .tau { s with pc := .hash }
  | hash {s : RecvState rq} {x : Live rq} (h : s.pc = .hash) (hx : s.live = some x)
      (chunks : List Octets) (hr : ReadsOf x.col.file chunks) :
    RecvStep sha plane dec s .tau { s with actual := some (sha256File sha chunks), pc := .report }
  | done {s : RecvState rq} {x : Live rq} {actual : String} {ok : Bool} (h : s.pc = .report)
      (hx : s.live = some x) (ha : s.actual = some actual) :
    RecvStep sha plane dec s
      (.write (.done (actual == x.sha256) (verdict x.sha256 actual)) ok)
      (s.wroteTo (.done (actual == x.sha256) (verdict x.sha256 actual))
        (.ifOk ok (.returned (match verdict x.sha256 actual with
          | none => .ok ()
          | some e => .error (.transfer e)))))

end AtpExperiment
