/-
Send-rate control (`rate.rs`): the pacer and the adaptive controller.

Rates, losses, durations and instants are exact rationals in the place of
`f64` and `Instant`. `on_report` is cut where the source's own comments cut
it: the interval, the smoothed loss and its floor, the delivered window, the
decision.
-/
import AtpExperiment.Lib.Checked
import Mathlib.Data.Rat.Floor
import Mathlib.Tactic.Linarith

namespace AtpExperiment

/-- `f64::clamp`, which asserts `lo ≤ hi`. -/
def clamp (x lo hi : ℚ) : Checked ℚ :=
  if lo ≤ hi then .ok (max lo (min x hi)) else .error .assertion

namespace Rate

/-- `START_RATE_BPS`. -/
def startRateBps : ℚ := 100000000 / 8

/-- `MIN_RATE_BPS`. -/
def minRateBps : ℚ := 5000000 / 8

/-- `MIN_SAMPLE_DT`. -/
def minSampleDt : ℚ := 5 / 100

/-- `APP_LIMITED_FRAC`. -/
def appLimitedFrac : ℚ := 7 / 10

/-- `GROW_EVIDENCE_FRAC`. -/
def growEvidenceFrac : ℚ := 9 / 10

/-- `LOSS_EWMA_ALPHA`. -/
def lossEwmaAlpha : ℚ := 3 / 10

/-- `FLOOR_FALL`. -/
def floorFall : ℚ := 3 / 10

/-- `FLOOR_RELAX`. -/
def floorRelax : ℚ := 2 / 100

/-- `FLOOR_RELAX_SLOW`. -/
def floorRelaxSlow : ℚ := 4 / 1000

/-- `FLOOR_RATE_TOL`. -/
def floorRateTol : ℚ := 105 / 100

/-- `DELIVERED_WINDOW_MS`. -/
def deliveredWindowMs : UInt64 := 2500

/-- `CLEAN_EXCESS`. -/
def cleanExcess : ℚ := 2 / 100

/-- `CUT_EXCESS`. -/
def cutExcess : ℚ := 5 / 100

/-- `CUT_COOLDOWN`. -/
def cutCooldown : Nat := 3

/-- `CUT_MIN_FACTOR`. -/
def cutMinFactor : ℚ := 9 / 10

/-- `GROWTH_STARTUP`. -/
def growthStartup : ℚ := 2

/-- `GROWTH_STEADY`. -/
def growthSteady : ℚ := 105 / 100

/-- `GROWTH_SLOW`. -/
def growthSlow : ℚ := 101 / 100

/-- `STARTUP_GROWTH_MIN`. -/
def startupGrowthMin : ℚ := 110 / 100

/-- `STARTUP_STAGNANT_EXIT`. -/
def startupStagnantExit : Nat := 3

/-- `STARTUP_ABORT_EXCESS`. -/
def startupAbortExcess : ℚ := 15 / 100

/-- `MAX_BURST`, in seconds. -/
def maxBurst : ℚ := 10 / 1000

end Rate

open Rate

/-! ## Pacer -/

/-- `Pacer`. -/
structure Pacer where
  bytesPerSec : ℚ
  /-- When the next send is allowed; `none` until the first send. -/
  next : Option ℚ
  deriving DecidableEq

/-- What `Instant::now` reads, in seconds: the clock is far from its end. -/
structure Instant where
  secs : ℚ
  nonneg : 0 ≤ secs
  early : secs < 2 ^ 61

instance : Zero Instant := ⟨⟨0, le_rfl, by norm_num⟩⟩

namespace Pacer

/-- Where the clock of `Instant` ends, in seconds. -/
def instantEnd : ℚ := 2 ^ 63

/-- `Pacer::new_bps`. -/
def newBps (bytesPerSec : ℚ) : Pacer := ⟨bytesPerSec, none⟩

/-- `Pacer::new_mbps`. -/
def newMbps (rateMbps : ℚ) : Pacer := newBps (rateMbps * 1000000 / 8)

/-- `Pacer::set_rate_bps`. -/
def setRateBps (p : Pacer) (bytesPerSec : ℚ) : Pacer := { p with bytesPerSec }

/-- `Pacer::pace` called at `now`: the pacer and how long it sleeps. The clock
reaches back further than `MAX_BURST`, so `checked_sub` succeeds.
`Duration::from_secs_f64` panics from 2^64 s on, and the sum of an instant and a
duration where the clock ends. -/
def pace (p : Pacer) (now : ℚ) (len : Nat) : Checked (Pacer × ℚ) :=
  if p.bytesPerSec ≤ 0 then return (p, 0)
  else
    let dur := len / p.bytesPerSec
    if 2 ^ 64 ≤ dur then throw .assertion
    else
      let floor := now - maxBurst
      let next := (p.next.elim now fun n => max n floor) + dur
      if instantEnd ≤ next then throw .overflow
      else return ({ p with next := some next }, max 0 (next - now))

end Pacer

/-! ## Controller -/

/-- `Snap`: the counters of the last report used. -/
structure Snap where
  pkts : UInt64
  span : UInt64
  bytes : UInt64
  tMs : UInt64
  deriving DecidableEq

/-- `RateController`. -/
structure RateController where
  rate : ℚ
  max : ℚ
  seg : Nat
  startup : Bool
  bestDelivered : ℚ
  stagnant : Nat
  cooldown : Nat
  lossEwma : Option ℚ
  /-- The floor and the pacing rate at which it was measured. -/
  lossFloor : Option (ℚ × ℚ)
  /-- Receiver time and delivered rate, oldest first. -/
  delivered : List (UInt64 × ℚ)
  last : Option Snap
  deriving DecidableEq

namespace RateController

/-- `RateController::new`. -/
def new (seg : Nat) (maxRateMbps : ℚ) : RateController :=
  let max := Max.max (maxRateMbps * 1000000 / 8) minRateBps
  { rate := min startRateBps max, max, seg, startup := true, bestDelivered := 0, stagnant := 0,
    cooldown := 0, lossEwma := none, lossFloor := none, delivered := [], last := none }

/-- The smoothed loss after an interval. -/
def smooth (c : RateController) (rawLoss : ℚ) : ℚ :=
  match c.lossEwma with
  | some prev => (1 - lossEwmaAlpha) * prev + lossEwmaAlpha * rawLoss
  | none => rawLoss

/-- The floor after a smoothed sample, and the stored floor. -/
def trackFloor (c : RateController) (loss : ℚ) : ℚ × Option (ℚ × ℚ) :=
  match c.lossFloor with
  | some (f, fr) =>
    if f ≤ loss ∧ 0 < c.cooldown then (f, some (f, fr))
    else if f ≤ loss then
      let relax := if c.rate ≤ fr * floorRateTol then floorRelax else floorRelaxSlow
      let nf := f + relax * (min loss (f + cutExcess) - f)
      (nf, some (nf, fr))
    else
      let nf := f + floorFall * (loss - f)
      (nf, some (nf, c.rate))
  | none => (loss, some (loss, c.rate))

/-- The front of the delivered window that is out of date is popped. -/
def expire (tMs : UInt64) : List (UInt64 × ℚ) → Checked (List (UInt64 × ℚ))
  | [] => return []
  | (t, d) :: ds => do
    let limit ← Checked.addU64 t deliveredWindowMs
    if limit < tMs then expire tMs ds else return (t, d) :: ds

/-- `max_delivered`. -/
def maxDelivered (ds : List (UInt64 × ℚ)) : ℚ := ds.foldl (fun m s => Max.max m s.2) 0

/-- Congestion: down to what the pipe delivered, by `CUT_MIN_FACTOR` at least. -/
def cut (c : RateController) (maxDelivered : ℚ) : Checked RateController := do
  let ceiling := Max.max (c.rate * cutMinFactor) minRateBps
  let rate ← clamp maxDelivered minRateBps ceiling
  return { c with startup := false, rate, cooldown := cutCooldown }

/-- A clean, saturated interval. -/
def grow (c : RateController) (floor maxDelivered delivered : ℚ) : Checked RateController :=
  let anchor := maxDelivered / (1 - min floor (1 / 2))
  if !c.startup && decide (anchor ≤ c.rate) then
    return { c with rate := min (c.rate * growthSlow) c.max }
  else if c.startup then
    if c.bestDelivered * startupGrowthMin < delivered then
      return { c with
        bestDelivered := delivered, stagnant := 0, rate := min (c.rate * growthStartup) c.max }
    else if startupStagnantExit ≤ c.stagnant + 1 then do
      let rate ← clamp maxDelivered minRateBps (Max.max c.rate minRateBps)
      return { c with stagnant := c.stagnant + 1, startup := false, rate }
    else return { c with stagnant := c.stagnant + 1 }
  else return { c with rate := min (c.rate * growthSteady) c.max }

/-- The decision on an interval's signals. -/
def decideRate (c : RateController) (rawLoss loss floor maxDelivered delivered sentRate : ℚ) :
    Checked RateController :=
  let excess := loss - floor
  let saturated := growEvidenceFrac * c.rate ≤ sentRate
  let startupAbort := c.startup ∧ startupAbortExcess ≤ rawLoss - floor
  if cutExcess ≤ excess ∨ startupAbort then c.cut maxDelivered
  else if excess ≤ cleanExcess ∧ saturated then c.grow floor maxDelivered delivered
  else if c.startup = false ∧ excess < cutExcess ∧ saturated then
    return { c with rate := min (c.rate * growthSlow) c.max }
  else return c

/-- `on_report` from the loss signal on. -/
def onSignal (c : RateController) (tMs : UInt64) (rawLoss delivered sentRate : ℚ) :
    Checked (Option ℚ × RateController) :=
  let loss := c.smooth rawLoss
  let (floor, lossFloor) := c.trackFloor loss
  let c := { c with lossEwma := some loss, lossFloor }
  -- App-limited: the floor is updated, no decision.
  if sentRate < appLimitedFrac * c.rate then return (none, c)
  else do
    let ds ← expire tMs (c.delivered ++ [(tMs, delivered)])
    let c := { c with delivered := ds }
    if 0 < c.cooldown then return (none, { c with cooldown := c.cooldown - 1 })
    else do
      let c' ← c.decideRate rawLoss loss floor (maxDelivered ds) delivered sentRate
      return (if c'.rate ≠ c.rate then some c'.rate else none, c')

/-- `RateController::on_report`. The stand-in for an absent span divides by
`seg` whether it is used or not. -/
def onReport (c : RateController) (pkts : UInt64) (span : Option UInt64) (bytesSent tMs : UInt64) :
    Checked (Option ℚ × RateController) :=
  if c.seg = 0 then .error .divByZero
  else
    let span := span.getD (UInt64.ofNat (bytesSent.toNat / c.seg))
    let snap : Snap := ⟨pkts, span, bytesSent, tMs⟩
    match c.last with
    | none => return (none, { c with last := some snap })
    | some last =>
      let dt : ℚ := ((tMs.toNat - last.tMs.toNat : Nat) : ℚ) / 1000
      if dt < minSampleDt then return (none, c)
      else
        let dpkts := pkts.toNat - last.pkts.toNat
        let dspan := span.toNat - last.span.toNat
        let dbytes := bytesSent.toNat - last.bytes.toNat
        let c := { c with last := some snap }
        if dspan = 0 ∨ dpkts = 0 then return (none, c)
        else do
          let rawLoss ← clamp (1 - (dpkts : ℚ) / (dspan : ℚ)) 0 1
          c.onSignal tMs rawLoss ((dpkts : ℚ) * (c.seg : ℚ) / dt) ((dbytes : ℚ) / dt)

end RateController

end AtpExperiment
