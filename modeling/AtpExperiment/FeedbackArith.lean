/-
The arithmetic of feedback under a peer's numbers.

A Progress frame carries counters and a clock of the peer's choosing. Every
difference is saturating and every divisor is checked, so the one operation that
can overflow is the limit of a sample in the window of delivered rates,
`t + DELIVERED_WINDOW_MS`. A frame is processed unless it adds a sample and every
sample fresh at its time lies within 2.5 s of the end of the clock
(`progress_arith_iff`); a peer reaches that in two frames
(`late_clock_overflows`).
-/
import AtpExperiment.DeliveredWindow
import AtpExperiment.LossEstimate

namespace AtpExperiment

open Rate

/-- A Progress frame, and what the sender had sent when it came to it. -/
structure ProgressFrame where
  pkts : UInt64
  span : Option UInt64
  tMs : UInt64
  packetsSent : UInt64
  bytesSent : UInt64
  deriving DecidableEq

/-- What the controller is told of it. -/
def ProgressFrame.report (f : ProgressFrame) : ProgressReport :=
  ⟨f.pkts, f.span, f.bytesSent, f.tMs⟩

namespace Spray

variable {rq : Raptorq} {v v' : Spray rq} {f : ProgressFrame}

/-- `drain_feedback` on a Progress frame. -/
def onProgress (v : Spray rq) (f : ProgressFrame) : Checked (Drained rq) :=
  { v with packetsSent := f.packetsSent, bytesSent := f.bytesSent }.onFeedback
    (.progress f.pkts f.span f.tMs)

theorem onProgress_skip (h : f.pkts = 0 ∨ v.ctrl = none) :
    ∃ v', v.onProgress f = .ok (.go v') ∧ v'.ctrl = v.ctrl := by
  obtain ⟨loss, hloss⟩ := v.loss.update_ok f.pkts (f.span.getD f.packetsSent)
  let w := { v with packetsSent := f.packetsSent, bytesSent := f.bytesSent }
  by_cases hp : 0 < f.pkts
  · have hc : v.ctrl = none := h.resolve_left (UInt64.pos_iff_ne_zero.mp hp)
    refine ⟨{ w with loss, ctrl := none }, ?_, hc.symm⟩
    simp only [onProgress, onFeedback, if_pos hp, hloss, Checked.ok_bind, hc]
    rfl
  · refine ⟨w, ?_, rfl⟩
    simp only [onProgress, onFeedback, if_neg hp]
    rfl

/-- In adaptive mode a frame is what its report makes of the controller. -/
theorem onProgress_report {c : RateController} (hc : v.ctrl = some c) (hp : f.pkts ≠ 0) :
    ∃ next : Option ℚ × RateController → Spray rq, (∀ x, (next x).ctrl = some x.2) ∧
      v.onProgress f = c.report f.report >>= fun x => .ok (.go (next x)) := by
  obtain ⟨loss, hloss⟩ := v.loss.update_ok f.pkts (f.span.getD f.packetsSent)
  have hpos : 0 < f.pkts := UInt64.pos_iff_ne_zero.mpr hp
  refine ⟨fun x => { v with
    packetsSent := f.packetsSent
    bytesSent := f.bytesSent
    loss
    ctrl := some x.2
    pacer := x.1.elim v.pacer v.pacer.setRateBps },
    fun x => rfl, ?_⟩
  simp only [onProgress, onFeedback, if_pos hpos, hloss, Checked.ok_bind, hc]
  refine congrArg (c.report f.report >>= ·) (funext fun x => ?_)
  obtain ⟨_ | bps, c'⟩ := x <;> rfl

theorem onProgress_cases (v : Spray rq) (f : ProgressFrame) :
    ((f.pkts = 0 ∨ v.ctrl = none) ∧ ∃ v', v.onProgress f = .ok (.go v') ∧ v'.ctrl = v.ctrl) ∨
    ∃ c, f.pkts ≠ 0 ∧ v.ctrl = some c ∧
      ((∃ out c' v', c.report f.report = .ok (out, c') ∧ v.onProgress f = .ok (.go v') ∧
          v'.ctrl = some c') ∨
        ∃ p, c.report f.report = .error p ∧ v.onProgress f = .error p) := by
  by_cases hskip : f.pkts = 0 ∨ v.ctrl = none
  · exact .inl ⟨hskip, onProgress_skip hskip⟩
  rw [not_or, Option.eq_none_iff_forall_ne_some, not_forall_not] at hskip
  obtain ⟨hp, c, hc⟩ := hskip
  obtain ⟨next, hnext, hon⟩ := onProgress_report hc hp
  refine .inr ⟨c, hp, hc, ?_⟩
  cases hr : c.report f.report with
  | error p =>
    refine .inr ⟨p, rfl, ?_⟩
    rw [hon, hr]
    rfl
  | ok x =>
    refine .inl ⟨x.1, x.2, next x, rfl, ?_, hnext x⟩
    rw [hon, hr, Checked.ok_bind]

theorem onProgress_ok_iff (v : Spray rq) (f : ProgressFrame) :
    (∃ v', v.onProgress f = .ok (.go v')) ↔ ∀ c, v.ctrl = some c → f.pkts ≠ 0 →
      ∃ out c', c.report f.report = .ok (out, c') := by
  rcases v.onProgress_cases f with ⟨hskip, v', hv, -⟩ | ⟨c, hp, hc, hr⟩
  · refine iff_of_true ⟨v', hv⟩ fun c hc hp => ?_
    rcases hskip with hz | hnone
    · exact absurd hz hp
    · cases hnone.symm.trans hc
  · rcases hr with ⟨out, c', v', hr, hv, -⟩ | ⟨p, hr, hv⟩
    · refine iff_of_true ⟨v', hv⟩ fun c₁ hc₁ _ => ?_
      cases hc.symm.trans hc₁
      exact ⟨out, c', hr⟩
    · refine iff_of_false (fun ⟨v', hv'⟩ => by cases hv.symm.trans hv') fun hall => ?_
      obtain ⟨out, c', hr'⟩ := hall c hc hp
      cases hr.symm.trans hr'

end Spray

/-! ## Counters of the controller -/

namespace RateController

variable {c c' : RateController} {r : ProgressReport} {e : Exit}

/-- The `u32` counters stay small. -/
structure Counters (c : RateController) : Prop where
  stagnant : c.stagnant ≤ 3
  startup : c.startup = true → c.stagnant < 3
  cooldown : c.cooldown ≤ 3

theorem counters_new (seg : Nat) (maxRateMbps : ℚ) : (new seg maxRateMbps).Counters where
  stagnant := Nat.zero_le 3
  startup _ := Nat.zero_lt_succ 2
  cooldown := Nat.zero_le 3

theorem Takes.counters (h : Takes c r e c') (hc : c.Counters) : c'.Counters := by
  cases h with
  | quiet _ hq => rcases hq with rfl | rfl <;> exact ⟨hc.stagnant, hc.startup, hc.cooldown⟩
  | appLimited => exact ⟨hc.stagnant, hc.startup, hc.cooldown⟩
  | cooling => exact ⟨hc.stagnant, hc.startup, (Nat.sub_le _ 1).trans hc.cooldown⟩
  | decided _ _ _ _ hd =>
    cases hd with
    | cut _ hk =>
      obtain ⟨rate, -, rfl⟩ := cut_eq_ok hk
      exact ⟨hc.stagnant, fun h => (by cases h), le_rfl⟩
    | slow | steady | hold => exact ⟨hc.stagnant, hc.startup, hc.cooldown⟩
    | double => exact ⟨Nat.zero_le 3, fun _ => Nat.zero_lt_succ 2, hc.cooldown⟩
    | stagnate _ _ hn => exact ⟨Nat.le_of_lt hn, fun _ => hn, hc.cooldown⟩
    | plateau hp => exact ⟨hc.startup hp.startup, fun h => (by cases h), hc.cooldown⟩

end RateController

/-! ## Runs -/

open RateController

variable {rq : Raptorq} {cfg : SendCfg}

/-- What is known of the controller after any frames. -/
structure CtrlInv (c : RateController) : Prop where
  seg : c.seg ≠ 0
  window : ∃ recorded, WindowInv recorded c
  counters : c.Counters

theorem ctrlInv_new (cfg : SendCfg) : CtrlInv (.new cfg.seg cfg.maxRateMbps) where
  seg := (TxPlane.wireLen_pos _ _).ne'
  window := ⟨[], windowInv_new _ _⟩
  counters := counters_new _ _

theorem CtrlInv.step {c c' : RateController} {r : ProgressReport} {out : Option ℚ}
    (hi : CtrlInv c) (h : c.report r = .ok (out, c')) : CtrlInv c' := by
  obtain ⟨e, ht⟩ := report_takes h
  obtain ⟨recorded, hw⟩ := hi.window
  exact ⟨by rw [ht.seg]; exact hi.seg, ⟨_, hw.step h⟩, ht.counters hi.counters⟩

/-- A Progress frame that was processed. -/
def Progressed (v : Spray rq) (f : ProgressFrame) (v' : Spray rq) : Prop :=
  v.onProgress f = .ok (.go v')

theorem ctrlInv_of_trace {fs : List ProgressFrame} {v : Spray rq}
    (h : Runs.Trace Progressed (Spray.new rq cfg) fs v) : ∀ c, v.ctrl = some c → CtrlInv c := by
  refine h.invariant (fun v => ∀ c, v.ctrl = some c → CtrlInv c) ?_ ?_
  · intro c hc
    simp only [Spray.new] at hc
    split at hc
    · cases hc
    · cases hc
      exact ctrlInv_new cfg
  · intro v f v' hi hst c hc
    rcases v.onProgress_cases f with ⟨-, w, hw, hctrl⟩ | ⟨c₀, -, hc₀, ⟨out, c', w, hr, hw, hctrl⟩ |
      ⟨p, -, hp⟩⟩
    · cases hw.symm.trans hst
      exact hi c (hctrl.symm.trans hc)
    · cases hw.symm.trans hst
      cases hctrl.symm.trans hc
      exact (hi c₀ hc₀).step hr
    · cases hp.symm.trans hst

/-- **When a peer's numbers cannot break the arithmetic.** After any Progress
frames and whatever was sent meanwhile, a frame is processed without a panic
exactly if it adds no sample to the window of delivered rates, or some sample
fresh at its time has a limit below the end of the clock; so it is whenever its
own time is at most `u64::MAX - 2500`. A panic is an overflow, and the other
counters of the controller never exceed 3. -/
theorem progress_arith_iff {fs : List ProgressFrame} {v : Spray rq}
    (h : Runs.Trace Progressed (Spray.new rq cfg) fs v) (f : ProgressFrame) :
    ((∃ v', v.onProgress f = .ok (.go v')) ↔
      ∀ c s, v.ctrl = some c → f.pkts ≠ 0 → c.sample f.report = some s →
        ∃ t ∈ c.delivered ++ [s],
          f.tMs.toNat ≤ t.1.toNat + 2500 ∧ t.1.toNat + 2500 < 2 ^ 64) ∧
    (f.tMs.toNat ≤ 2 ^ 64 - 1 - 2500 → ∃ v', v.onProgress f = .ok (.go v')) ∧
    (∀ p, v.onProgress f = .error p → p = .overflow) ∧
    ∀ c, v.ctrl = some c → c.stagnant ≤ 3 ∧ c.cooldown ≤ 3 := by
  have hinv := ctrlInv_of_trace h
  have hiff : (∃ v', v.onProgress f = .ok (.go v')) ↔
      ∀ c s, v.ctrl = some c → f.pkts ≠ 0 → c.sample f.report = some s →
        ∃ t ∈ c.delivered ++ [s],
          f.tMs.toNat ≤ t.1.toNat + 2500 ∧ t.1.toNat + 2500 < 2 ^ 64 := by
    rw [v.onProgress_ok_iff f]
    constructor
    · intro hall c s hc hp
      obtain ⟨recorded, hw⟩ := (hinv c hc).window
      exact (hw.report_ok_iff (hinv c hc).seg f.report).mp (hall c hc hp) s
    · intro hall c hc hp
      obtain ⟨recorded, hw⟩ := (hinv c hc).window
      exact (hw.report_ok_iff (hinv c hc).seg f.report).mpr fun s => hall c s hc hp
  refine ⟨hiff, fun hlate => ?_, fun p hp => ?_, fun c hc => ?_⟩
  · rw [hiff]
    intro c s _ _ hs
    have htime : s.1.toNat = f.tMs.toNat := by rw [(sample_eq_some hs).1]; rfl
    exact ⟨s, by simp, by omega, by omega⟩
  · rcases v.onProgress_cases f with ⟨-, v', hv, -⟩ | ⟨c, -, hc, ⟨_, _, v', -, hv, -⟩ | ⟨q, hr, hq⟩⟩
    · cases hp.symm.trans hv
    · cases hp.symm.trans hv
    · cases hp.symm.trans hq
      rcases report_ok_or (hinv c hc).seg f.report with ⟨out, c', hok⟩ | ⟨herr, -⟩
      · cases hr.symm.trans hok
      · cases hr.symm.trans herr
        rfl
  · exact ⟨(hinv c hc).counters.stagnant, (hinv c hc).counters.cooldown⟩

/-- A first frame at `tMs`. -/
def firstFrame (tMs : UInt64) : ProgressFrame := ⟨1, some 1, tMs, 1, 84⟩

/-- A second one, with all of 14883 packets received. -/
def secondFrame (tMs : UInt64) : ProgressFrame := ⟨14883, some 14883, tMs, 14883, 1250172⟩

/-- The controller of the tiny file after the first of the two. -/
def firstExample (tMs : UInt64) : RateController :=
  { RateController.new 84 200 with last := some ⟨1, 1, 84, tMs⟩ }

theorem firstFrame_trace (tMs : UInt64) : ∃ v : Spray .repetition,
    Runs.Trace Progressed (Spray.new .repetition (tinyCfg .plain "" 200)) [firstFrame tMs] v ∧
    v.ctrl = some (firstExample tMs) := by
  have hctrl : (Spray.new .repetition (tinyCfg .plain "" 200)).ctrl = some (.new 84 200) := rfl
  obtain ⟨next, hnext, hon⟩ := Spray.onProgress_report (f := firstFrame tMs) hctrl
    (by simp [firstFrame])
  have hfirst : (RateController.new 84 200).report (firstFrame tMs).report =
      .ok (none, firstExample tMs) := rfl
  refine ⟨next (none, firstExample tMs), .cons ?_ .nil, hnext _⟩
  rw [Progressed, hon, hfirst, Checked.ok_bind]

/-- The second of two frames, 100 ms after the first, adds a sample. -/
theorem progress_arith_second : ∃ v v' : Spray .repetition,
    Runs.Trace Progressed (Spray.new .repetition (tinyCfg .plain "" 200)) [firstFrame 0] v ∧
    v.ctrl = some (firstExample 0) ∧
    (firstExample 0).sample (secondFrame 100).report = some (100, 12500880) ∧
    v.onProgress (secondFrame 100) = .ok (.go v') := by
  obtain ⟨v, hv, hctrl⟩ := firstFrame_trace 0
  have hsample : (firstExample 0).sample (secondFrame 100).report = some (100, 12500880) := by
    decide +kernel
  obtain ⟨v', hv'⟩ := (progress_arith_iff hv (secondFrame 100)).1.mpr fun c s hc _ hs => by
    cases hctrl.symm.trans hc
    cases hsample.symm.trans hs
    exact ⟨_, List.mem_append_right _ (List.mem_singleton.mpr rfl), by decide, by decide⟩
  exact ⟨v, v', hv, hctrl, hsample, hv'⟩

/-- At the last millisecond of the clock the limit of the sample overflows. -/
theorem late_clock_overflows : ∃ v : Spray .repetition,
    Runs.Trace Progressed (Spray.new .repetition (tinyCfg .plain "" 200))
      [firstFrame 18446744073709551515] v ∧
    v.onProgress (secondFrame 18446744073709551615) = .error .overflow := by
  obtain ⟨v, hv, hctrl⟩ := firstFrame_trace 18446744073709551515
  have hlast : (firstExample 18446744073709551515).report
      (secondFrame 18446744073709551615).report = .error .overflow := by decide +kernel
  obtain ⟨_, -, hon⟩ := Spray.onProgress_report (f := secondFrame 18446744073709551615) hctrl
    (by decide)
  refine ⟨v, hv, ?_⟩
  rw [hon, hlast]
  rfl

end AtpExperiment
