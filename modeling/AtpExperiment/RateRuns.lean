/-
Runs of the rate controller: any sequence of reports, in any order.

`Takes` says once what a report can do, exit by exit of `on_report`
(`report_takes`); a report that does not return has run out of milliseconds
(`report_ok_or`). Over every run the rate keeps to its bounds, and the
controller returns it exactly when it changed (`rate_bounds`).
-/
import AtpExperiment.Lib.Runs
import AtpExperiment.RateFacts

namespace AtpExperiment

open Rate

/-- The arguments of `on_report`. -/
structure ProgressReport where
  pkts : UInt64
  span : Option UInt64
  bytesSent : UInt64
  tMs : UInt64
  deriving DecidableEq

/-! ## Intervals -/

/-- What an interval that is long enough and saw packets measures. -/
structure Signal where
  rawLoss : ℚ
  delivered : ℚ
  sentRate : ℚ

namespace Snap

/-- Seconds of receiver time since `last`. -/
def dt (last snap : Snap) : ℚ := ((snap.tMs.toNat - last.tMs.toNat : Nat) : ℚ) / 1000

def dpkts (last snap : Snap) : Nat := snap.pkts.toNat - last.pkts.toNat

def dspan (last snap : Snap) : Nat := snap.span.toNat - last.span.toNat

def dbytes (last snap : Snap) : Nat := snap.bytes.toNat - last.bytes.toNat

/-- `sent_rate`. -/
def sentRate (last snap : Snap) : ℚ := (dbytes last snap : ℚ) / dt last snap

/-- The signal of the interval since `last`, in datagrams of `seg` bytes. -/
def measure (seg : Nat) (last snap : Snap) : Signal where
  rawLoss := max 0 (min (1 - (dpkts last snap : ℚ) / (dspan last snap : ℚ)) 1)
  delivered := (dpkts last snap : ℚ) * (seg : ℚ) / dt last snap
  sentRate := sentRate last snap

end Snap

namespace RateController

/-- `on_report`. -/
def report (c : RateController) (r : ProgressReport) : Checked (Option ℚ × RateController) :=
  c.onReport r.pkts r.span r.bytesSent r.tMs

/-- The counters of a report. -/
def snap (c : RateController) (r : ProgressReport) : Snap :=
  ⟨r.pkts, r.span.getD (UInt64.ofNat (r.bytesSent.toNat / c.seg)), r.bytesSent, r.tMs⟩

/-- The signal of a report; `none` for the first one, one that is merged into
the next, and an idle interval. -/
def signal (c : RateController) (r : ProgressReport) : Option Signal :=
  match c.last with
  | none => none
  | some last =>
    if last.dt (c.snap r) < minSampleDt then none
    else if last.dspan (c.snap r) = 0 ∨ last.dpkts (c.snap r) = 0 then none
    else some (Snap.measure c.seg last (c.snap r))

/-- The floor a signal is compared with. -/
def floorOf (c : RateController) (σ : Signal) : ℚ := (c.trackFloor (c.smooth σ.rawLoss)).1

/-- The excess loss of a signal. -/
def excess (c : RateController) (σ : Signal) : ℚ := c.smooth σ.rawLoss - c.floorOf σ

/-- The controller with a report's signal recorded. -/
def sampled (c : RateController) (r : ProgressReport) (σ : Signal) : RateController :=
  { c with
    last := some (c.snap r)
    lossEwma := some (c.smooth σ.rawLoss)
    lossFloor := (c.trackFloor (c.smooth σ.rawLoss)).2 }

/-- The controller a decision changes: the signal recorded, and the window. -/
def windowed (c : RateController) (r : ProgressReport) (σ : Signal) (ds : List (UInt64 × ℚ)) :
    RateController :=
  { c.sampled r σ with delivered := ds }

/-- The congestion condition of `on_report`. -/
def Congested (c : RateController) (σ : Signal) : Prop :=
  cutExcess ≤ c.excess σ ∨ c.startup = true ∧ startupAbortExcess ≤ σ.rawLoss - c.floorOf σ

/-- The interval saturated the pacing rate. -/
def Saturated (c : RateController) (σ : Signal) : Prop := growEvidenceFrac * c.rate ≤ σ.sentRate

/-! ## Exits of `on_report` -/

/-- What a decision does. -/
inductive Decision
  | cut
  | slow
  | double
  | stagnate
  | plateau
  | steady
  | hold
  deriving DecidableEq

/-- Where a report leaves `on_report`. -/
inductive Exit
  /-- No signal. -/
  | quiet
  | appLimited
  | cooling
  | decided (d : Decision)
  deriving DecidableEq

/-- A clean interval that saturated the pacing rate, in startup. -/
structure Probing (c : RateController) (σ : Signal) : Prop where
  startup : c.startup = true
  calm : ¬ c.Congested σ
  clean : c.excess σ ≤ cleanExcess
  saturated : c.Saturated σ

/-- The decisions on a signal, with `m` the window's maximum; `k` is the
controller they change. -/
inductive Decides (c : RateController) (σ : Signal) (m : ℚ) (k : RateController) :
    Decision → RateController → Prop
  | cut {k' : RateController} (h : c.Congested σ) (hk : k.cut m = .ok k') : Decides c σ m k .cut k'
  | slow (hs : c.startup = false) (hn : ¬ c.Congested σ) (hsat : c.Saturated σ) :
    Decides c σ m k .slow { k with rate := min (k.rate * growthSlow) k.max }
  | steady (hs : c.startup = false) (hn : ¬ c.Congested σ) (hsat : c.Saturated σ) :
    Decides c σ m k .steady { k with rate := min (k.rate * growthSteady) k.max }
  | double (hp : c.Probing σ) (hd : c.bestDelivered * startupGrowthMin < σ.delivered) :
    Decides c σ m k .double
      { k with
        bestDelivered := σ.delivered
        stagnant := 0
        rate := min (k.rate * growthStartup) k.max }
  | stagnate (hp : c.Probing σ) (hd : σ.delivered ≤ c.bestDelivered * startupGrowthMin)
    (hn : c.stagnant + 1 < startupStagnantExit) :
    Decides c σ m k .stagnate { k with stagnant := k.stagnant + 1 }
  | plateau {rate : ℚ} (hp : c.Probing σ)
    (hd : σ.delivered ≤ c.bestDelivered * startupGrowthMin)
    (hn : startupStagnantExit ≤ c.stagnant + 1)
    (hr : clamp m minRateBps (Max.max k.rate minRateBps) = .ok rate) :
    Decides c σ m k .plateau { k with stagnant := k.stagnant + 1, startup := false, rate }
  | hold (hn : ¬ c.Congested σ) (h : c.startup = true ∨ ¬ c.Saturated σ) : Decides c σ m k .hold k

/-- What a report can do, exit by exit. -/
inductive Takes (c : RateController) (r : ProgressReport) : Exit → RateController → Prop
  | quiet {c' : RateController} (h : c.signal r = none)
    (hc : c' = c ∨ c' = { c with last := some (c.snap r) }) : Takes c r .quiet c'
  | appLimited {σ : Signal} (h : c.signal r = some σ) (hs : σ.sentRate < appLimitedFrac * c.rate) :
    Takes c r .appLimited (c.sampled r σ)
  | cooling {σ : Signal} {ds : List (UInt64 × ℚ)} (h : c.signal r = some σ)
    (hs : appLimitedFrac * c.rate ≤ σ.sentRate)
    (hds : expire r.tMs (c.delivered ++ [(r.tMs, σ.delivered)]) = .ok ds) (hcool : 0 < c.cooldown) :
    Takes c r .cooling { c.windowed r σ ds with cooldown := c.cooldown - 1 }
  | decided {σ : Signal} {ds : List (UInt64 × ℚ)} {d : Decision} {c' : RateController}
    (h : c.signal r = some σ) (hs : appLimitedFrac * c.rate ≤ σ.sentRate)
    (hds : expire r.tMs (c.delivered ++ [(r.tMs, σ.delivered)]) = .ok ds) (hcool : c.cooldown = 0)
    (hd : Decides c σ (maxDelivered ds) (c.windowed r σ ds) d c') :
    Takes c r (.decided d) c'

variable {c c' : RateController} {r : ProgressReport} {σ : Signal}

theorem decideRate_decides {ds : List (UInt64 × ℚ)} {m : ℚ}
    (h : (c.windowed r σ ds).decideRate σ.rawLoss (c.smooth σ.rawLoss) (c.floorOf σ) m
      σ.delivered σ.sentRate = .ok c') : ∃ d, Decides c σ m (c.windowed r σ ds) d c' := by
  simp only [decideRate] at h
  split at h
  · next hcut => exact ⟨.cut, .cut hcut h⟩
  next hn =>
  split at h
  · next hclean =>
    simp only [grow] at h
    split at h
    · next hslow =>
      obtain rfl := Checked.pure_eq_ok.mp h
      simp only [Bool.and_eq_true, Bool.not_eq_true'] at hslow
      exact ⟨.slow, .slow hslow.1 hn hclean.2⟩
    split at h
    · next hs =>
      have hp : c.Probing σ := ⟨hs, hn, hclean.1, hclean.2⟩
      split at h
      · next hd =>
        obtain rfl := Checked.pure_eq_ok.mp h
        exact ⟨.double, .double hp hd⟩
      next hd =>
      split at h
      · next hexit =>
        simp only [Checked.bind_eq_ok, Checked.pure_eq_ok] at h
        obtain ⟨rate, hrate, rfl⟩ := h
        exact ⟨.plateau, .plateau hp (not_lt.mp hd) hexit hrate⟩
      · next hexit =>
        obtain rfl := Checked.pure_eq_ok.mp h
        exact ⟨.stagnate, .stagnate hp (not_lt.mp hd) (not_le.mp hexit)⟩
    · next hs =>
      obtain rfl := Checked.pure_eq_ok.mp h
      exact ⟨.steady, .steady (Bool.eq_false_of_not_eq_true hs) hn hclean.2⟩
  next hclean =>
  split at h
  · next hmid =>
    obtain rfl := Checked.pure_eq_ok.mp h
    exact ⟨.slow, .slow hmid.1 hn hmid.2.2⟩
  · next hmid =>
    obtain rfl := Checked.pure_eq_ok.mp h
    refine ⟨.hold, .hold hn ?_⟩
    rcases Bool.eq_false_or_eq_true c.startup with hs | hs
    · exact .inl hs
    · exact .inr fun hsat => hmid ⟨hs, lt_of_not_ge fun hx => hn (.inl hx), hsat⟩

theorem onSignal_takes {out : Option ℚ} (h : c.signal r = some σ)
    (hsig : ({ c with last := some (c.snap r) } : RateController).onSignal r.tMs σ.rawLoss
      σ.delivered σ.sentRate = .ok (out, c')) : ∃ e, Takes c r e c' := by
  simp only [onSignal] at hsig
  split at hsig
  · next happ =>
    obtain ⟨-, rfl⟩ := Prod.mk.inj (Checked.pure_eq_ok.mp hsig)
    exact ⟨.appLimited, .appLimited h happ⟩
  next happ =>
  simp only [Checked.bind_eq_ok] at hsig
  obtain ⟨ds, hds, hsig⟩ := hsig
  split at hsig
  · next hcool =>
    obtain ⟨-, rfl⟩ := Prod.mk.inj (Checked.pure_eq_ok.mp hsig)
    exact ⟨.cooling, .cooling h (not_lt.mp happ) hds hcool⟩
  next hcool =>
  simp only [Checked.bind_eq_ok, Checked.pure_eq_ok, Prod.mk.injEq] at hsig
  obtain ⟨c'', hd, -, rfl⟩ := hsig
  obtain ⟨d, hd⟩ := decideRate_decides hd
  exact ⟨.decided d, .decided h (not_lt.mp happ) hds (Nat.eq_zero_of_not_pos hcool) hd⟩

/-- **Every report takes one of the exits.** -/
theorem report_takes {out : Option ℚ} (h : c.report r = .ok (out, c')) : ∃ e, Takes c r e c' := by
  simp only [report, onReport] at h
  split at h
  · cases h
  split at h
  · next hlast =>
    obtain ⟨-, rfl⟩ := Prod.mk.inj (Checked.pure_eq_ok.mp h)
    exact ⟨.quiet, .quiet (by simp only [signal, hlast]) (.inr rfl)⟩
  next last hlast =>
  split at h
  · next hdt =>
    obtain ⟨-, rfl⟩ := Prod.mk.inj (Checked.pure_eq_ok.mp h)
    exact ⟨.quiet, .quiet (by simp only [signal, hlast]; exact if_pos hdt) (.inl rfl)⟩
  next hdt =>
  split at h
  · next hidle =>
    obtain ⟨-, rfl⟩ := Prod.mk.inj (Checked.pure_eq_ok.mp h)
    refine ⟨.quiet, .quiet ?_ (.inr rfl)⟩
    simp only [signal, hlast]
    exact (if_neg hdt).trans (if_pos hidle)
  next hidle =>
  simp only [Checked.bind_eq_ok] at h
  obtain ⟨raw, hraw, h⟩ := h
  obtain ⟨-, rfl⟩ := clamp_eq_ok.mp hraw
  have hsig : c.signal r = some (Snap.measure c.seg last (c.snap r)) := by
    simp only [signal, hlast]
    exact (if_neg hdt).trans (if_neg hidle)
  exact onSignal_takes hsig h

/-! ## Frames -/

theorem cut_eq_ok {k k' : RateController} {m : ℚ} (h : k.cut m = .ok k') :
    ∃ rate, clamp m minRateBps (Max.max (k.rate * cutMinFactor) minRateBps) = .ok rate ∧
      k' = { k with startup := false, rate, cooldown := cutCooldown } := by
  simp only [cut, Checked.bind_eq_ok, Checked.pure_eq_ok] at h
  obtain ⟨rate, hrate, rfl⟩ := h
  exact ⟨rate, hrate, rfl⟩

/-- What no decision changes. -/
structure SameSamples (k k' : RateController) : Prop where
  seg : k'.seg = k.seg
  last : k'.last = k.last
  lossEwma : k'.lossEwma = k.lossEwma
  lossFloor : k'.lossFloor = k.lossFloor
  delivered : k'.delivered = k.delivered

theorem Decides.sameSamples {m : ℚ} {k : RateController} {d : Decision}
    (h : Decides c σ m k d c') : SameSamples k c' := by
  cases h with
  | cut _ hk =>
    obtain ⟨rate, -, rfl⟩ := cut_eq_ok hk
    exact ⟨rfl, rfl, rfl, rfl, rfl⟩
  | _ => exact ⟨rfl, rfl, rfl, rfl, rfl⟩

theorem Takes.seg {e : Exit} (h : Takes c r e c') : c'.seg = c.seg := by
  cases h with
  | quiet _ hc => rcases hc with rfl | rfl <;> rfl
  | appLimited | cooling => rfl
  | decided _ _ _ _ hd => exact hd.sameSamples.seg

theorem Takes.last {e : Exit} (h : Takes c r e c') :
    c'.last = c.last ∨ c'.last = some (c.snap r) := by
  cases h with
  | quiet _ hc =>
    rcases hc with rfl | rfl
    · exact .inl rfl
    · exact .inr rfl
  | appLimited | cooling => exact .inr rfl
  | decided _ _ _ _ hd => exact .inr hd.sameSamples.last

/-! ## Delivered window -/

theorem mem_of_mem_expire {t : UInt64} {ds ds' : List (UInt64 × ℚ)} (h : expire t ds = .ok ds') :
    ∀ s ∈ ds', s ∈ ds := by
  induction ds with
  | nil =>
    obtain rfl := Checked.pure_eq_ok.mp h
    exact fun s hs => hs
  | cons a ds ih =>
    obtain ⟨u, d⟩ := a
    simp only [expire, Checked.bind_eq_ok] at h
    obtain ⟨limit, -, h⟩ := h
    split at h
    · exact fun s hs => List.mem_cons_of_mem _ (ih h s hs)
    · obtain rfl := Checked.pure_eq_ok.mp h
      exact fun s hs => hs

theorem Takes.mem_delivered {e : Exit} (h : Takes c r e c') :
    ∀ s ∈ c'.delivered, s ∈ c.delivered ∨ s.1 = r.tMs := by
  have hpushed : ∀ {σ : Signal} {ds : List (UInt64 × ℚ)},
      expire r.tMs (c.delivered ++ [(r.tMs, σ.delivered)]) = .ok ds →
        ∀ s ∈ ds, s ∈ c.delivered ∨ s.1 = r.tMs := by
    intro σ ds hds s hs
    rcases List.mem_append.mp (mem_of_mem_expire hds s hs) with hs | hs
    · exact .inl hs
    · rw [List.mem_singleton.mp hs]
      exact .inr rfl
  cases h with
  | quiet _ hc => rcases hc with rfl | rfl <;> exact fun s hs => .inl hs
  | appLimited => exact fun s hs => .inl hs
  | cooling _ _ hds => exact hpushed hds
  | decided _ _ hds _ hd =>
    rw [hd.sameSamples.delivered]
    exact hpushed hds

/-! ## Panics -/

/-- The window's limit is the only addition that can overflow. -/
theorem expire_ok_or (t : UInt64) (ds : List (UInt64 × ℚ)) : (∃ ds', expire t ds = .ok ds') ∨
    expire t ds = .error .overflow ∧ ∃ s ∈ ds, 2 ^ 64 ≤ s.1.toNat + deliveredWindowMs.toNat := by
  induction ds with
  | nil => exact .inl ⟨[], rfl⟩
  | cons a ds ih =>
    obtain ⟨u, d⟩ := a
    by_cases hlt : u.toNat + deliveredWindowMs.toNat < 2 ^ 64
    · simp only [expire, Checked.addU64_of_lt hlt, Checked.ok_bind]
      split
      · rcases ih with ih | ⟨ih, s, hs, hle⟩
        · exact .inl ih
        · exact .inr ⟨ih, s, List.mem_cons_of_mem _ hs, hle⟩
      · exact .inl ⟨_, rfl⟩
    · refine .inr ⟨?_, (u, d), List.mem_cons_self, not_lt.mp hlt⟩
      simp only [expire, Checked.addU64, if_neg hlt]
      rfl

theorem decideRate_ok (k : RateController) (raw loss f m d sent : ℚ) :
    ∃ k', k.decideRate raw loss f m d sent = .ok k' := by
  unfold decideRate
  simp only
  split
  · simp only [cut, clamp_ok (le_max_right _ _), Checked.ok_bind]
    exact ⟨_, rfl⟩
  split
  · simp only [grow]
    split
    · exact ⟨_, rfl⟩
    split
    · split
      · exact ⟨_, rfl⟩
      split
      · simp only [clamp_ok (le_max_right _ _), Checked.ok_bind]
        exact ⟨_, rfl⟩
      · exact ⟨_, rfl⟩
    · exact ⟨_, rfl⟩
  split
  · exact ⟨_, rfl⟩
  · exact ⟨_, rfl⟩

/-- A signal is processed, or popping the window after it overflows. -/
theorem onSignal_ok_or (c : RateController) (t : UInt64) (raw d sent : ℚ) :
    (∃ out c', c.onSignal t raw d sent = .ok (out, c')) ∨
    c.onSignal t raw d sent = .error .overflow ∧ appLimitedFrac * c.rate ≤ sent ∧
      expire t (c.delivered ++ [(t, d)]) = .error .overflow := by
  simp only [onSignal]
  split
  · exact .inl ⟨_, _, rfl⟩
  next happ =>
  rcases expire_ok_or t (c.delivered ++ [(t, d)]) with ⟨ds, hds⟩ | ⟨hds, -⟩
  · simp only [hds, Checked.ok_bind]
    split
    · exact .inl ⟨_, _, rfl⟩
    · obtain ⟨k', hk⟩ := decideRate_ok { c with
        lossEwma := some (c.smooth raw)
        lossFloor := (c.trackFloor (c.smooth raw)).2
        delivered := ds } raw (c.smooth raw) (c.trackFloor (c.smooth raw)).1 (maxDelivered ds) d
        sent
      rw [hk]
      exact .inl ⟨_, _, rfl⟩
  · exact .inr ⟨by simp only [hds]; rfl, not_lt.mp happ, hds⟩

/-- A report returns, or has a signal, is not app-limited, and popping the window
after it overflows. -/
theorem report_ok_or (hseg : c.seg ≠ 0) (r : ProgressReport) :
    (∃ out c', c.report r = .ok (out, c')) ∨
    c.report r = .error .overflow ∧ ∃ σ, c.signal r = some σ ∧
      appLimitedFrac * c.rate ≤ σ.sentRate ∧
      expire r.tMs (c.delivered ++ [(r.tMs, σ.delivered)]) = .error .overflow := by
  simp only [report, onReport, if_neg hseg]
  split
  · exact .inl ⟨_, _, rfl⟩
  next last hlast =>
  split
  · exact .inl ⟨_, _, rfl⟩
  next hdt =>
  split
  · exact .inl ⟨_, _, rfl⟩
  next hidle =>
  have hsig : c.signal r = some (Snap.measure c.seg last (c.snap r)) := by
    simp only [signal, hlast]
    exact (if_neg hdt).trans (if_neg hidle)
  simp only [clamp_ok zero_le_one, Checked.ok_bind]
  rcases onSignal_ok_or _ _ _ _ _ with hok | ⟨herr, happ, hds⟩
  · exact .inl hok
  · exact .inr ⟨herr, _, hsig, happ, hds⟩

/-! ## Divisions -/

/-- The divisors of a call that are not constants: those of the interval when
there is a signal, and that of the anchor. -/
def divisors (c : RateController) (r : ProgressReport) : List ℚ :=
  (c.seg : ℚ) ::
    match c.last, c.signal r with
    | some last, some σ => [(last.dspan (c.snap r) : ℚ), last.dt (c.snap r),
        1 - min (c.floorOf σ) (1 / 2)]
    | _, _ => []

theorem signal_eq_some (h : c.signal r = some σ) : ∃ last, c.last = some last ∧
    minSampleDt ≤ last.dt (c.snap r) ∧ last.dspan (c.snap r) ≠ 0 ∧ last.dpkts (c.snap r) ≠ 0 ∧
    σ = Snap.measure c.seg last (c.snap r) := by
  simp only [signal] at h
  split at h
  · cases h
  next last hlast =>
  split at h
  · cases h
  next hdt =>
  split at h
  · cases h
  next hidle =>
  rw [not_or] at hidle
  exact ⟨last, hlast, not_lt.mp hdt, hidle.1, hidle.2, (Option.some.inj h).symm⟩

theorem divisors_ne_zero (hseg : c.seg ≠ 0) (r : ProgressReport) : ∀ d ∈ c.divisors r, d ≠ 0 := by
  intro d hd
  rcases List.mem_cons.mp hd with rfl | hd
  · exact Nat.cast_ne_zero.mpr hseg
  split at hd
  · next last σ hlast hsig =>
    obtain ⟨last', hlast', hdt, hspan, -⟩ := signal_eq_some hsig
    cases hlast.symm.trans hlast'
    have hdtpos : 0 < last.dt (c.snap r) := lt_of_lt_of_le (by norm_num [minSampleDt]) hdt
    have hanchor : (0 : ℚ) < 1 - min (c.floorOf σ) (1 / 2) := by
      have := min_le_right (c.floorOf σ) (1 / 2)
      linarith
    simp only [List.mem_cons, List.not_mem_nil, or_false] at hd
    rcases hd with rfl | rfl | rfl
    · exact Nat.cast_ne_zero.mpr hspan
    · exact hdtpos.ne'
    · exact hanchor.ne'
  · cases hd

end RateController

/-! ## Runs -/

open RateController

/-- A call of `on_report`, with the controller before and after. -/
structure Call where
  before : RateController
  report : ProgressReport
  out : Option ℚ
  after : RateController

/-- The step of a run: a call that returned. -/
def Called (c : RateController) (l : Call) (c' : RateController) : Prop :=
  l.before = c ∧ l.after = c' ∧ c.report l.report = .ok (l.out, c')

theorem Called.reported {c c' : RateController} {l : Call} (h : Called c l c') :
    Reported c l.out c' := by
  obtain ⟨-, -, h⟩ := h
  exact onReport_reported h

theorem Called.takes {c c' : RateController} {l : Call} (h : Called c l c') :
    ∃ e, Takes l.before l.report e l.after := by
  obtain ⟨rfl, rfl, h⟩ := h
  exact report_takes h

theorem mem_delivered_of_trace {c c' : RateController} {calls : List Call}
    (h : Runs.Trace Called c calls c') :
    ∀ s ∈ c'.delivered, s ∈ c.delivered ∨ s.1 ∈ calls.map (·.report.tMs) := by
  refine h.history (fun ls c' => ∀ s ∈ c'.delivered, s ∈ c.delivered ∨ s.1 ∈ ls.map (·.report.tMs))
    (fun s hs => .inl hs) ?_
  intro ls _ l _ ih hst s hs
  obtain ⟨e, ht⟩ := hst.takes
  obtain ⟨rfl, rfl, -⟩ := hst
  rw [List.map_append, List.mem_append]
  rcases ht.mem_delivered s hs with hs | hs
  · exact (ih s hs).imp_right .inl
  · exact .inr (.inr (by rw [hs]; exact List.mem_singleton_self _))

/-- **The rate keeps to its bounds, whatever is reported.** After any reports
the rate is between `MIN_RATE_BPS` and the cap; on any further one no divisor
is zero, no clamp panics, and the returned value is the new rate exactly when
the rate changed. The one panic left is the overflow of a window's limit, for
a time within 2.5 s of the end of `u64` milliseconds. -/
theorem rate_bounds (seg : Nat) (hseg : 0 < seg) (maxRateMbps : ℚ) {calls : List Call}
    {c : RateController} (h : Runs.Trace Called (.new seg maxRateMbps) calls c) :
    minRateBps ≤ c.rate ∧ c.rate ≤ c.max ∧ c.max = max (maxRateMbps * 1000000 / 8) minRateBps ∧
    ∀ r, (∀ d ∈ c.divisors r, d ≠ 0) ∧
      ((∃ out c', c.report r = .ok (out, c') ∧
          ∀ x, out = some x ↔ c'.rate ≠ c.rate ∧ x = c'.rate) ∨
        c.report r = .error .overflow ∧
          ∃ t ∈ r.tMs :: calls.map (·.report.tMs), 2 ^ 64 ≤ t.toNat + 2500) := by
  obtain ⟨hb, hmax, hs⟩ := h.invariant
    (fun c => c.Bounded ∧ c.max = max (maxRateMbps * 1000000 / 8) minRateBps ∧ c.seg = seg)
    ⟨bounded_new seg maxRateMbps, rfl, rfl⟩ (by
      intro c l c' hI hst
      obtain ⟨hb, hmax, hs⟩ := hI
      have hr := hst.reported
      obtain ⟨e, ht⟩ := hst.takes
      obtain ⟨rfl, rfl, -⟩ := hst
      exact ⟨hr.bounded hb, hr.max.trans hmax, ht.seg.trans hs⟩)
  have hne : c.seg ≠ 0 := by omega
  refine ⟨hb.low, hb.high, hmax, fun r => ⟨divisors_ne_zero hne r, ?_⟩⟩
  rcases report_ok_or hne r with ⟨out, c', hr⟩ | ⟨hr, σ, -, -, hds⟩
  · refine .inl ⟨out, c', hr, fun x => ?_⟩
    rw [(onReport_reported hr).rate]
    by_cases hrate : c'.rate = c.rate
    · simp [hrate]
    · simp [hrate, eq_comm]
  · rcases expire_ok_or r.tMs (c.delivered ++ [(r.tMs, σ.delivered)]) with
      ⟨ds, hok⟩ | ⟨-, s, hs, hle⟩
    · rw [hds] at hok
      cases hok
    refine .inr ⟨hr, s.1, ?_, hle⟩
    rcases List.mem_append.mp hs with hs | hs
    · rcases mem_delivered_of_trace h s hs with hs | hs
      · cases hs
      · exact List.mem_cons_of_mem _ hs
    · rw [List.mem_singleton.mp hs]
      exact List.mem_cons_self

/-- The controller after a first report. -/
def startedExample : RateController :=
  { RateController.new 1224 5000 with last := some ⟨0, 0, 0, 0⟩ }

/-- The same 100 ms later, with 500 packets of 1000 received at the full rate:
the rate has doubled. -/
def doubledExample : RateController :=
  { startedExample with
    rate := 25000000
    bestDelivered := 6120000
    lossEwma := some (1 / 2)
    lossFloor := some (1 / 2, 12500000)
    delivered := [(100, 6120000)]
    last := some ⟨500, 1000, 1250000, 100⟩ }

/-- The two calls. -/
def doublingCalls : List Call :=
  [⟨.new 1224 5000, ⟨0, some 0, 0, 0⟩, none, startedExample⟩,
    ⟨startedExample, ⟨500, some 1000, 1250000, 100⟩, some 25000000, doubledExample⟩]

theorem doublingCalls_trace :
    Runs.Trace Called (.new 1224 5000) doublingCalls doubledExample :=
  .cons ⟨rfl, rfl, rfl⟩ (.cons ⟨rfl, rfl, by decide +kernel⟩ .nil)

theorem rate_bounds_doubled : minRateBps ≤ doubledExample.rate ∧
    doubledExample.rate ≤ doubledExample.max := by
  obtain ⟨hlow, hhigh, -⟩ := rate_bounds 1224 (by decide) 5000 doublingCalls_trace
  exact ⟨hlow, hhigh⟩

end AtpExperiment
