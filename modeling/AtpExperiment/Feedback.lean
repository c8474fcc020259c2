/-
Feedback at the sender (`send.rs`): the reader task's messages, the loss
estimate that sizes repair, and the encoder cache.
-/
import AtpExperiment.Rate
import AtpExperiment.Wire

namespace AtpExperiment

open Octets

/-- `Feedback`; `closed` carries the unexpected frame, or nothing when the
read failed. -/
inductive Feedback
  | decoded (index : UInt32)
  | progress (pkts : UInt64) (span : Option UInt64) (tMs : UInt64)
  | done (ok : Bool) (error : Option String)
  | closed (got : Option Frame)
  deriving DecidableEq

/-- The reader task on a frame: the message it sends on, and whether it
goes on reading. -/
def readerTask : Frame → Feedback × Bool
  | .blockDecoded index => (.decoded index, true)
  | .progress pkts span tMs => (.progress pkts span tMs, true)
  | .done ok error => (.done ok error, false)
  | f => (.closed (some f), false)

/-! ## Loss estimate -/

/-- `LossEstimator`. -/
structure LossEstimator where
  ewma : ℚ
  primed : Bool
  last : Option (UInt64 × UInt64)
  deriving DecidableEq

namespace LossEstimator

/-- `LossEstimator::new`. -/
def new : LossEstimator := ⟨0, false, none⟩

/-- `LossEstimator::update`. -/
def update (e : LossEstimator) (received sent : UInt64) : Checked LossEstimator :=
  match e.last with
  | none =>
    if 0 < sent then do
      let ewma ← clamp (1 - (received.toNat : ℚ) / (sent.toNat : ℚ)) 0 (9 / 10)
      return ⟨ewma, true, some (received, sent)⟩
    else return { e with last := some (received, sent) }
  | some (lr, ls) =>
    let dr := received.toNat - lr.toNat
    let ds := sent.toNat - ls.toNat
    -- Tiny intervals are merged into the next report.
    if ds < 50 then return e
    else do
      let sample ← clamp (1 - (dr : ℚ) / (ds : ℚ)) 0 (9 / 10)
      let ewma := if e.primed then 7 / 10 * e.ewma + 3 / 10 * sample else sample
      return ⟨ewma, true, some (received, sent)⟩

/-- `LossEstimator::round0_frac`. -/
def round0Frac (e : LossEstimator) (cliFrac : ℚ) : Checked ℚ :=
  let adaptive := if e.primed then e.ewma * (3 / 2) + 2 / 100 else 0
  clamp (max cliFrac adaptive) 0 (8 / 10)

/-- `LossEstimator::repair_frac`. -/
def repairFrac (e : LossEstimator) : Checked ℚ :=
  let base := if e.primed then e.ewma * (3 / 2) else 0
  clamp base (5 / 100) (8 / 10)

end LossEstimator

/-- `(x.ceil() as u32)`, a cast that saturates. -/
def ceilU32 (x : ℚ) : UInt32 := UInt32.ofNat (min ⌈x⌉.toNat (2 ^ 32 - 1))

/-- `xorshift_unit`: a value in `[0, 1)` and the next state. -/
def xorshiftUnit (state : UInt64) : ℚ × UInt64 :=
  let x := state ^^^ (state <<< 13)
  let x := x ^^^ (x >>> 7)
  let x := x ^^^ (x <<< 17)
  ((((x * 0x2545f4914f6cdd1d) >>> 11).toNat : ℚ) / 2 ^ 53, x)

/-! ## Encoder cache -/

variable {rq : Raptorq}

/-- The encoder of block `b` built from `data[range(b)]`; the debug assertion
is on its number of source blocks. -/
def buildEncoder (l : Layout) (data : Octets) (b : UInt32) : Checked rq.Encoder := do
  let r ← l.range b
  if data.length < r.stop then throw .outOfBounds
  let enc ← rq.encoderWithDefaults (slice data r.start r.stop) l.symbolSize
  if (rq.blockEncoders enc).length ≠ 1 then throw .assertion
  return enc

/-- `get_encoder`: the encoder, and the cache with it in front. -/
def getEncoder (cache : List (UInt32 × rq.Encoder)) (cap : Nat) (b : UInt32) (l : Layout)
    (data : Octets) : Checked (rq.Encoder × List (UInt32 × rq.Encoder)) :=
  match cache.find? (·.1 == b) with
  | some entry => return (entry.2, entry :: cache.eraseP (·.1 == b))
  | none => do
    let enc ← buildEncoder l data b
    match ((b, enc) :: cache).take cap with
    | [] => throw .assertion
    | entry :: rest => return (entry.2, entry :: rest)

end AtpExperiment
