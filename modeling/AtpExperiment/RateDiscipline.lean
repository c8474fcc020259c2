/-
When the rate changes, and by how much.

Startup ends once. A report that measures nothing, or an interval in which the
sender was the limit, never changes the rate; only a saturated interval without
congestion raises it, and outside startup and cooldown every such interval
does. A cut comes down by `CUT_MIN_FACTOR` at least, and the next
`CUT_COOLDOWN` measurements are sat out (`step_discipline`).
-/
import AtpExperiment.RateRuns

namespace AtpExperiment

open Rate

namespace RateController

variable {c c' : RateController} {r : ProgressReport} {σ : Signal} {e : Exit}

/-- The first report, an interval under 50 ms, one with no new span or no new
packets, or one in which the sender was the limit. -/
def Undecided (c : RateController) (r : ProgressReport) : Prop :=
  c.last = none ∨ ∃ last, c.last = some last ∧
    (last.dt (c.snap r) < minSampleDt ∨ last.dspan (c.snap r) = 0 ∨ last.dpkts (c.snap r) = 0 ∨
      last.sentRate (c.snap r) < appLimitedFrac * c.rate)

/-- A report with a signal that is not app-limited. -/
def measures (c : RateController) (r : ProgressReport) : Bool :=
  match c.signal r with
  | none => false
  | some σ => decide (appLimitedFrac * c.rate ≤ σ.sentRate)

/-- The report takes the congestion branch. -/
def Cuts (c : RateController) (r : ProgressReport) : Prop :=
  ∃ σ, c.signal r = some σ ∧ appLimitedFrac * c.rate ≤ σ.sentRate ∧ c.cooldown = 0 ∧ c.Congested σ

theorem measures_of_signal (h : c.signal r = some σ) :
    c.measures r = decide (appLimitedFrac * c.rate ≤ σ.sentRate) := by
  simp only [measures, h]

theorem Undecided.measures (h : c.Undecided r) : c.measures r = false := by
  cases hsig : c.signal r with
  | none => simp only [RateController.measures, hsig]
  | some σ =>
    obtain ⟨last, hlast, hdt, hspan, hpkts, rfl⟩ := signal_eq_some hsig
    rw [measures_of_signal hsig]
    rcases h with h | ⟨last', hlast', h⟩
    · rw [hlast] at h
      cases h
    · cases hlast.symm.trans hlast'
      rcases h with h | h | h | h
      · exact absurd h (not_lt.mpr hdt)
      · exact absurd h hspan
      · exact absurd h hpkts
      · exact decide_eq_false (not_le.mpr h)

/-! ## One report -/

theorem Takes.startup (h : Takes c r e c') (hs : c.startup = false) : c'.startup = false := by
  cases h with
  | quiet _ hc => rcases hc with rfl | rfl <;> exact hs
  | appLimited | cooling => exact hs
  | decided _ _ _ _ hd =>
    cases hd with
    | cut _ hk =>
      obtain ⟨rate, -, rfl⟩ := cut_eq_ok hk
      rfl
    | plateau => rfl
    | slow | steady | double | stagnate | hold => exact hs

/-- A report that measures nothing changes neither the rate nor the cooldown. -/
theorem Takes.of_not_measures (h : Takes c r e c') (hm : c.measures r = false) :
    c'.rate = c.rate ∧ c'.cooldown = c.cooldown := by
  cases h with
  | quiet _ hc => rcases hc with rfl | rfl <;> exact ⟨rfl, rfl⟩
  | appLimited => exact ⟨rfl, rfl⟩
  | cooling hsig hs =>
    rw [measures_of_signal hsig] at hm
    exact absurd hs (of_decide_eq_false hm)
  | decided hsig hs =>
    rw [measures_of_signal hsig] at hm
    exact absurd hs (of_decide_eq_false hm)

/-- In a cooldown a report keeps the rate, and a measurement counts down. -/
theorem Takes.of_cooldown (h : Takes c r e c') (hcool : 0 < c.cooldown) :
    c'.rate = c.rate ∧ c'.cooldown + (if c.measures r then 1 else 0) = c.cooldown := by
  cases hm : c.measures r with
  | false => exact h.of_not_measures hm
  | true =>
    cases h with
    | quiet hsig => simp [measures, hsig] at hm
    | appLimited hsig hs =>
      rw [measures_of_signal hsig] at hm
      exact absurd (of_decide_eq_true hm) (not_le.mpr hs)
    | cooling =>
      refine ⟨rfl, ?_⟩
      simp only [if_true]
      omega
    | decided _ _ _ hzero => omega

theorem Takes.of_cuts (h : Takes c r e c') (hcut : c.Cuts r) :
    c'.rate ≤ Max.max (9 / 10 * c.rate) minRateBps ∧ c'.cooldown = cutCooldown := by
  obtain ⟨σ, hsig, hs, hzero, hcong⟩ := hcut
  cases h with
  | quiet hnone => rw [hsig] at hnone; cases hnone
  | appLimited hsig' hs' =>
    cases hsig.symm.trans hsig'
    exact absurd hs (not_le.mpr hs')
  | cooling _ _ _ hcool => omega
  | decided hsig' _ _ _ hd =>
    cases hsig.symm.trans hsig'
    cases hd with
    | cut _ hk =>
      obtain ⟨rate, hrate, rfl⟩ := cut_eq_ok hk
      refine ⟨le_trans (clamp_mem hrate).2 (le_of_eq ?_), rfl⟩
      rw [mul_comm]
      rfl
    | slow _ hn | steady _ hn | hold hn => exact absurd hcong hn
    | double hp | stagnate hp | plateau hp => exact absurd hcong hp.calm

theorem excess_lt_of_not_congested (h : ¬ c.Congested σ) : c.excess σ < cutExcess :=
  lt_of_not_ge fun hx => h (.inl hx)

/-- The most a report may raise the rate by. -/
def growthLimit (c : RateController) : ℚ := if c.startup then growthStartup else growthSteady

theorem Bounded.pos (hb : c.Bounded) : 0 < c.rate := lt_of_lt_of_le minRateBps_pos hb.low

/-- A growth step is within the limit and raises a rate below the cap. -/
theorem Bounded.grows (hb : c.Bounded) {g : ℚ} (hg : 1 < g) :
    min (c.rate * g) c.max ≤ g * c.rate ∧ (c.rate < c.max → c.rate < min (c.rate * g) c.max) := by
  refine ⟨le_trans (min_le_left _ _) (le_of_eq (mul_comm _ _)), fun hlt => lt_min ?_ hlt⟩
  exact lt_mul_of_one_lt_right hb.pos hg

theorem Bounded.not_raised (hb : c.Bounded) {m x g : ℚ} (hg : g ≤ 1)
    (h : clamp m minRateBps (Max.max (c.rate * g) minRateBps) = .ok x) : x ≤ c.rate :=
  le_trans (clamp_mem h).2 (max_le (mul_le_of_le_one_right hb.pos.le hg) hb.low)

theorem Takes.of_rise (h : Takes c r e c') (hb : c.Bounded) (hlt : c.rate < c'.rate) :
    ∃ σ, c.signal r = some σ ∧ c.Saturated σ ∧ c.excess σ < cutExcess ∧
      c'.rate ≤ c.growthLimit * c.rate := by
  cases h with
  | quiet _ hc => rcases hc with rfl | rfl <;> exact absurd hlt (lt_irrefl _)
  | appLimited | cooling => exact absurd hlt (lt_irrefl _)
  | decided hsig _ _ _ hd =>
    cases hd with
    | cut _ hk =>
      obtain ⟨rate, hrate, rfl⟩ := cut_eq_ok hk
      exact absurd hlt (not_lt.mpr (hb.not_raised (by norm_num [cutMinFactor]) hrate))
    | slow hs hn hsat =>
      refine ⟨_, hsig, hsat, excess_lt_of_not_congested hn, ?_⟩
      refine le_trans (hb.grows (by norm_num [growthSlow])).1 ?_
      rw [growthLimit, if_neg (by simp [hs])]
      exact mul_le_mul_of_nonneg_right (by norm_num [growthSlow, growthSteady]) hb.pos.le
    | steady hs hn hsat =>
      refine ⟨_, hsig, hsat, excess_lt_of_not_congested hn, ?_⟩
      rw [growthLimit, if_neg (by simp [hs])]
      exact (hb.grows (by norm_num [growthSteady])).1
    | double hp =>
      refine ⟨_, hsig, hp.saturated, excess_lt_of_not_congested hp.calm, ?_⟩
      rw [growthLimit, if_pos hp.startup]
      exact (hb.grows (by norm_num [growthStartup])).1
    | plateau _ _ _ hr =>
      rw [← mul_one (windowed _ _ _ _).rate] at hr
      exact absurd hlt (not_lt.mpr (hb.not_raised le_rfl hr))
    | stagnate | hold => exact absurd hlt (lt_irrefl _)

/-- There is no hold state: outside startup and cooldown a saturated interval
without congestion raises a rate below the cap. -/
theorem Takes.raises (h : Takes c r e c') (hb : c.Bounded) (hsig : c.signal r = some σ)
    (hs : c.startup = false) (hcool : c.cooldown = 0) (hsat : c.Saturated σ)
    (hx : c.excess σ < cutExcess) (hmax : c.rate < c.max) : c.rate < c'.rate := by
  have hcalm : ¬ c.Congested σ := by
    intro hcong
    rcases hcong with hcut | ⟨hstart, -⟩
    · exact absurd hx (not_lt.mpr hcut)
    · rw [hs] at hstart
      cases hstart
  cases h with
  | quiet hnone => rw [hsig] at hnone; cases hnone
  | appLimited hsig' happ =>
    cases hsig.symm.trans hsig'
    have hle : appLimitedFrac * c.rate ≤ growEvidenceFrac * c.rate :=
      mul_le_mul_of_nonneg_right (by norm_num [appLimitedFrac, growEvidenceFrac]) hb.pos.le
    exact absurd happ (not_lt.mpr (le_trans hle hsat))
  | cooling _ _ _ hpos => omega
  | decided hsig' _ _ _ hd =>
    cases hsig.symm.trans hsig'
    cases hd with
    | cut hcong => exact absurd hcong hcalm
    | slow => exact (hb.grows (by norm_num [growthSlow])).2 hmax
    | steady => exact (hb.grows (by norm_num [growthSteady])).2 hmax
    | double hp | stagnate hp | plateau hp =>
      have := hp.startup
      rw [hs] at this
      cases this
    | hold _ hor =>
      rcases hor with hstart | hunsat
      · rw [hs] at hstart
        cases hstart
      · exact absurd hsat hunsat

end RateController

/-! ## Runs -/

open RateController

theorem Called.startup {c c' : RateController} {l : Call} (h : Called c l c')
    (hs : c.startup = false) : c'.startup = false := by
  obtain ⟨e, ht⟩ := h.takes
  obtain ⟨rfl, rfl, -⟩ := h
  exact ht.startup hs

theorem startup_of_trace {c c' : RateController} {calls : List Call}
    (h : Runs.Trace Called c calls c') (hs : c.startup = false) :
    ∀ l ∈ calls, l.after.startup = false := by
  refine h.forall_mem (fun c => c.startup = false) hs (fun c l c' hs hst => hst.startup hs) ?_
  intro c l c' hs hst
  rw [hst.2.1]
  exact hst.startup hs

theorem takes_of_trace {seg : Nat} {maxRateMbps : ℚ} {calls : List Call} {c : RateController}
    (h : Runs.Trace Called (.new seg maxRateMbps) calls c) :
    ∀ l ∈ calls, l.before.Bounded ∧ ∃ e, Takes l.before l.report e l.after := by
  refine h.forall_mem Bounded (bounded_new seg maxRateMbps)
    (fun c l c' hb hst => hst.reported.bounded hb) ?_
  intro c l c' hb hst
  rw [hst.1]
  exact ⟨hb, hst.1 ▸ hst.takes⟩

/-- A cooldown lasts until as many measurements have passed. -/
theorem cooldown_of_trace {c c' : RateController} {calls : List Call}
    (h : Runs.Trace Called c calls c')
    (hlt : calls.countP (fun l => l.before.measures l.report) < c.cooldown) :
    c'.cooldown + calls.countP (fun l => l.before.measures l.report) = c.cooldown := by
  induction h with
  | nil => rfl
  | cons hst _ ih =>
    obtain ⟨e, ht⟩ := hst.takes
    obtain ⟨rfl, rfl, -⟩ := hst
    rw [List.countP_cons] at hlt ⊢
    have hcool := (ht.of_cooldown (by omega)).2
    have := ih (by omega)
    omega

/-- A call that follows a cut with fewer than `CUT_COOLDOWN` measurements in
between keeps the rate. -/
theorem rate_after_cut {c c' : RateController} {l m : Call} {mid post : List Call}
    (h : Runs.Trace Called c (l :: (mid ++ m :: post)) c') (hcut : l.before.Cuts l.report)
    (hlt : mid.countP (fun l => l.before.measures l.report) < cutCooldown) :
    m.after.rate = m.before.rate := by
  cases h with
  | cons hl h =>
    obtain ⟨u, hmid, hrest⟩ := h.split
    obtain ⟨e, ht⟩ := hl.takes
    obtain ⟨-, rfl, -⟩ := hl
    have hthree := (ht.of_cuts hcut).2
    have hcool := cooldown_of_trace hmid (by rwa [hthree])
    cases hrest with
    | cons hm =>
      obtain ⟨e', ht'⟩ := hm.takes
      obtain ⟨rfl, rfl, -⟩ := hm
      exact (ht'.of_cooldown (by omega)).1

/-- **The discipline of the rate over every run**, from a new controller
through any reports: startup does not come back; undecided reports keep the
rate; a rise needs a saturated interval without congestion and is at most
twofold in startup and by 1.05 after; outside startup and cooldown there is no
hold; a cut comes down by a tenth at least, or to `MIN_RATE_BPS`, and the next
`CUT_COOLDOWN` measurements keep the rate. -/
theorem step_discipline (seg : Nat) (maxRateMbps : ℚ) {calls : List Call} {c : RateController}
    (h : Runs.Trace Called (.new seg maxRateMbps) calls c) :
    (∀ pre l post, calls = pre ++ l :: post → l.after.startup = false →
      ∀ m ∈ post, m.after.startup = false) ∧
    (∀ l ∈ calls, l.before.Undecided l.report → l.after.rate = l.before.rate) ∧
    (∀ l ∈ calls, l.before.rate < l.after.rate →
      (∃ σ, l.before.signal l.report = some σ ∧ 9 / 10 * l.before.rate ≤ σ.sentRate ∧
        l.before.excess σ < cutExcess) ∧
      l.after.rate ≤ (if l.before.startup then 2 else 105 / 100) * l.before.rate) ∧
    (∀ l ∈ calls, ∀ σ, l.before.signal l.report = some σ → l.before.startup = false →
      l.before.cooldown = 0 → 9 / 10 * l.before.rate ≤ σ.sentRate →
      l.before.excess σ < cutExcess → l.before.rate < l.before.max →
      l.before.rate < l.after.rate) ∧
    (∀ l ∈ calls, l.before.Cuts l.report →
      l.after.rate ≤ max (9 / 10 * l.before.rate) minRateBps) ∧
    (∀ pre l mid m post, calls = pre ++ l :: (mid ++ m :: post) → l.before.Cuts l.report →
      mid.countP (fun l => l.before.measures l.report) < cutCooldown →
      m.after.rate = m.before.rate) := by
  have hall := takes_of_trace h
  refine ⟨?_, ?_, ?_, ?_, ?_, ?_⟩
  · intro pre l post heq hs
    subst heq
    obtain ⟨u, -, h⟩ := h.split
    cases h with
    | cons hl h =>
      obtain ⟨-, rfl, -⟩ := hl
      exact startup_of_trace h hs
  · intro l hl hund
    obtain ⟨-, e, ht⟩ := hall l hl
    exact (ht.of_not_measures hund.measures).1
  · intro l hl hlt
    obtain ⟨hb, e, ht⟩ := hall l hl
    obtain ⟨σ, hsig, hsat, hx, hle⟩ := ht.of_rise hb hlt
    exact ⟨⟨σ, hsig, hsat, hx⟩, hle⟩
  · intro l hl σ hsig hs hcool hsat hx hmax
    obtain ⟨hb, e, ht⟩ := hall l hl
    exact ht.raises hb hsig hs hcool hsat hx hmax
  · intro l hl hcut
    obtain ⟨-, e, ht⟩ := hall l hl
    exact (ht.of_cuts hcut).1
  · intro pre l mid m post heq hcut hlt
    subst heq
    obtain ⟨u, -, h⟩ := h.split
    exact rate_after_cut h hcut hlt

/-- The rise of the doubling run was earned. -/
theorem step_discipline_doubled : startedExample.rate < doubledExample.rate ∧
    doubledExample.rate ≤ 2 * startedExample.rate := by
  obtain ⟨-, -, hrise, -⟩ := step_discipline 1224 5000 doublingCalls_trace
  have hlt : startedExample.rate < doubledExample.rate := by decide +kernel
  exact ⟨hlt, (hrise ⟨startedExample, ⟨500, some 1000, 1250000, 100⟩, some 25000000,
    doubledExample⟩ (List.mem_cons_of_mem _ List.mem_cons_self) hlt).2⟩

end AtpExperiment
