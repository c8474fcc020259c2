/-
Random loss never causes a back-off.

When every report lies on one loss line, each interval measures the same loss
`1 - q`. The smoothed loss and the floor are then equal to it, the excess is
zero, and the controller never cuts; the rate can come down only where startup
ends on a delivery plateau, so at most once (`random_loss_no_backoff`).
-/
import AtpExperiment.RateDiscipline

namespace AtpExperiment

open Rate

/-! ## Loss lines -/

/-- The span a report stands for, in datagrams of `seg` bytes. -/
def ProgressReport.spanOr (seg : Nat) (r : ProgressReport) : UInt64 :=
  r.span.getD (UInt64.ofNat (r.bytesSent.toNat / seg))

/-- Counters that do not decrease, with `q` packets received to each one of
the span. -/
def OnLine (q : ℚ) (pkts span pkts' span' : UInt64) : Prop :=
  pkts ≤ pkts' ∧ span ≤ span' ∧
    (pkts'.toNat : ℚ) - pkts.toNat = q * ((span'.toNat : ℚ) - span.toNat)

/-- Any two of the reports are on the line. -/
def LossLine (q : ℚ) (seg : Nat) (rs : List ProgressReport) : Prop :=
  rs.Pairwise fun a b => OnLine q a.pkts (a.spanOr seg) b.pkts (b.spanOr seg)

theorem rawLoss_of_onLine {q : ℚ} (hq : 0 < q) (hq1 : q ≤ 1) {seg : Nat} {last snap : Snap}
    (h : OnLine q last.pkts last.span snap.pkts snap.span) (hspan : last.dspan snap ≠ 0) :
    (Snap.measure seg last snap).rawLoss = 1 - q := by
  obtain ⟨hp, hs, hline⟩ := h
  rw [UInt64.le_iff_toNat_le] at hp hs
  have hdp : (last.dpkts snap : ℚ) = q * (last.dspan snap : ℚ) := by
    rw [Snap.dpkts, Snap.dspan, Nat.cast_sub hp, Nat.cast_sub hs]
    exact hline
  have hne : (last.dspan snap : ℚ) ≠ 0 := Nat.cast_ne_zero.mpr hspan
  simp only [Snap.measure]
  rw [hdp, mul_div_cancel_right₀ q hne, min_eq_left (by linarith), max_eq_right (by linarith)]

namespace RateController

variable {c c' : RateController} {r : ProgressReport} {σ : Signal} {e : Exit} {q : ℚ}

/-- The smoothed loss and the floor are both `1 - q`. -/
def Measured (q : ℚ) (c : RateController) : Prop :=
  c.lossEwma = some (1 - q) ∧ ∃ fr, c.lossFloor = some (1 - q, fr)

/-- Nothing measured but the line's loss, and no cooldown. -/
structure OnlyLine (q : ℚ) (c : RateController) : Prop where
  loss : c.lossEwma = none ∧ c.lossFloor = none ∨ Measured q c
  cooldown : c.cooldown = 0

theorem OnlyLine.smooth (h : OnlyLine q c) : c.smooth (1 - q) = 1 - q := by
  unfold RateController.smooth
  rcases h.loss with ⟨hnone, -⟩ | ⟨hsome, -⟩
  · rw [hnone]
  · rw [hsome]
    simp only
    ring

theorem OnlyLine.trackFloor (h : OnlyLine q c) :
    (c.trackFloor (1 - q)).1 = 1 - q ∧ ∃ fr, (c.trackFloor (1 - q)).2 = some (1 - q, fr) := by
  unfold RateController.trackFloor
  rcases h.loss with ⟨-, hnone⟩ | ⟨-, fr, hsome⟩
  · rw [hnone]
    exact ⟨rfl, _, rfl⟩
  · rw [hsome]
    -- Relaxing towards the floor itself does not move it.
    have hmin : min (1 - q) (1 - q + cutExcess) = 1 - q := min_eq_left (by norm_num [cutExcess])
    simp only [le_refl, h.cooldown, Nat.lt_irrefl, and_false, if_false, if_true, hmin, sub_self,
      mul_zero, add_zero]
    exact ⟨trivial, fr, rfl⟩

/-- The signal of an interval on the line has no excess. -/
theorem OnlyLine.not_congested (h : OnlyLine q c) (hraw : σ.rawLoss = 1 - q) :
    ¬ c.Congested σ := by
  have hfloor : c.floorOf σ = 1 - q := by
    rw [floorOf, hraw, h.smooth]
    exact h.trackFloor.1
  intro hcong
  rcases hcong with hx | ⟨-, hx⟩
  · rw [excess, hfloor, hraw, h.smooth, sub_self] at hx
    norm_num [cutExcess] at hx
  · rw [hfloor, hraw, sub_self] at hx
    norm_num [startupAbortExcess] at hx

theorem OnlyLine.measured_sampled (h : OnlyLine q c) (hraw : σ.rawLoss = 1 - q)
    (r : ProgressReport) : Measured q (c.sampled r σ) := by
  refine ⟨?_, ?_⟩
  · simp only [sampled, hraw, h.smooth]
  · simp only [sampled, hraw, h.smooth]
    exact h.trackFloor.2

/-! ## One report -/

/-- A report on the line, to a controller that has seen nothing else. -/
structure LineCall (q : ℚ) (c : RateController) (r : ProgressReport) : Prop where
  pos : 0 < q
  le_one : q ≤ 1
  only : OnlyLine q c
  bounded : c.Bounded
  line : ∀ last, c.last = some last →
    OnLine q last.pkts last.span (c.snap r).pkts (c.snap r).span

theorem LineCall.rawLoss (h : LineCall q c r) (hsig : c.signal r = some σ) :
    σ.rawLoss = 1 - q := by
  obtain ⟨last, hlast, -, hspan, -, rfl⟩ := signal_eq_some hsig
  exact rawLoss_of_onLine h.pos h.le_one (h.line last hlast) hspan

theorem LineCall.not_cuts (h : LineCall q c r) : ¬ c.Cuts r := by
  intro hcut
  obtain ⟨σ, hsig, -, -, hcong⟩ := hcut
  exact h.only.not_congested (h.rawLoss hsig) hcong

theorem Decides.cooldown {m : ℚ} {k : RateController} {d : Decision} (h : Decides c σ m k d c')
    (hn : ¬ c.Congested σ) : c'.cooldown = k.cooldown := by
  cases h with
  | cut hcong => exact absurd hcong hn
  | _ => rfl

theorem OnlyLine.of_measured (hm : Measured q c) (hcool : c.cooldown = 0) : OnlyLine q c :=
  ⟨.inr hm, hcool⟩

theorem LineCall.measured (h : LineCall q c r) (ht : Takes c r e c') (hsig : c.signal r ≠ none) :
    Measured q c' ∧ c'.cooldown = 0 := by
  cases ht with
  | quiet hnone => exact absurd hnone hsig
  | appLimited hσ => exact ⟨h.only.measured_sampled (h.rawLoss hσ) r, h.only.cooldown⟩
  | cooling _ _ _ hcool =>
    rw [h.only.cooldown] at hcool
    cases hcool
  | decided hσ _ _ _ hd =>
    have hm := h.only.measured_sampled (h.rawLoss hσ) r
    have hs := hd.sameSamples
    refine ⟨⟨hs.lossEwma.trans hm.1, ?_⟩, ?_⟩
    · rw [hs.lossFloor]
      exact hm.2
    · rw [hd.cooldown (h.only.not_congested (h.rawLoss hσ))]
      exact h.only.cooldown

/-- A report on the line keeps the controller on it. -/
theorem LineCall.next (h : LineCall q c r) (ht : Takes c r e c') :
    OnlyLine q c' ∧ (Measured q c → Measured q c') := by
  by_cases hsig : c.signal r = none
  · cases ht with
    | quiet _ hc => rcases hc with rfl | rfl <;> exact ⟨⟨h.only.loss, h.only.cooldown⟩, id⟩
    | appLimited hσ | cooling hσ | decided hσ =>
      rw [hsig] at hσ
      cases hσ
  · obtain ⟨hm, hcool⟩ := h.measured ht hsig
    exact ⟨.of_measured hm hcool, fun _ => hm⟩

/-- On the line the rate comes down on the plateau that ends startup only. -/
theorem LineCall.rate (h : LineCall q c r) (ht : Takes c r e c') :
    c.rate ≤ c'.rate ∨ e = .decided .plateau := by
  cases ht with
  | quiet _ hc => rcases hc with rfl | rfl <;> exact .inl le_rfl
  | appLimited | cooling => exact .inl le_rfl
  | decided hσ _ _ _ hd =>
    have hgrown : ∀ {g : ℚ}, 1 ≤ g → c.rate ≤ min (c.rate * g) c.max := fun hg =>
      le_min (le_mul_of_one_le_right h.bounded.pos.le hg) h.bounded.high
    cases hd with
    | cut hcong => exact absurd hcong (h.only.not_congested (h.rawLoss hσ))
    | slow => exact .inl (hgrown (by norm_num [growthSlow]))
    | steady => exact .inl (hgrown (by norm_num [growthSteady]))
    | double => exact .inl (hgrown (by norm_num [growthStartup]))
    | stagnate | hold => exact .inl le_rfl
    | plateau => exact .inr rfl

theorem Takes.plateau (h : Takes c r (.decided .plateau) c') :
    c.startup = true ∧ c'.startup = false := by
  cases h with
  | decided _ _ _ _ hd =>
    cases hd with
    | plateau hp => exact ⟨hp.startup, rfl⟩

end RateController

/-! ## Runs -/

open RateController

theorem lineCalls {q : ℚ} (hq : 0 < q) (hq1 : q ≤ 1) {c c' : RateController} {calls : List Call}
    (h : Runs.Trace Called c calls c') (hc : OnlyLine q c) (hb : c.Bounded)
    (hahead : ∀ last, c.last = some last → ∀ l ∈ calls,
      OnLine q last.pkts last.span l.report.pkts (l.report.spanOr c.seg))
    (hline : LossLine q c.seg (calls.map (·.report))) :
    ∀ l ∈ calls, LineCall q l.before l.report := by
  induction h with
  | nil => exact fun l hl => nomatch hl
  | @cons c _ _ l calls hst _ ih =>
    obtain ⟨e, ht⟩ := hst.takes
    have hb' := hst.reported.bounded hb
    obtain ⟨rfl, rfl, -⟩ := hst
    obtain ⟨hhead, htail⟩ := List.pairwise_cons.mp hline
    have hl : LineCall q l.before l.report :=
      ⟨hq, hq1, hc, hb, fun last hlast => hahead last hlast l List.mem_cons_self⟩
    intro m hm
    rcases List.mem_cons.mp hm with rfl | hm
    · exact hl
    refine ih (hl.next ht).1 hb' ?_ ?_ m hm
    · -- The snapshot is the old one or this report's.
      intro last hlast k hk
      rw [ht.seg]
      rcases ht.last with hold | hnew
      · exact hahead last (hold ▸ hlast) k (List.mem_cons_of_mem _ hk)
      · cases hnew.symm.trans hlast
        exact hhead k.report (List.mem_map_of_mem hk)
    · rw [ht.seg]
      exact htail

theorem measured_of_trace {q : ℚ} {c c' : RateController} {calls : List Call}
    (h : Runs.Trace Called c calls c') (hcalls : ∀ l ∈ calls, LineCall q l.before l.report)
    (hm : Measured q c) : ∀ l ∈ calls, Measured q l.after := by
  induction h with
  | nil => exact fun l hl => nomatch hl
  | cons hst _ ih =>
    obtain ⟨e, ht⟩ := hst.takes
    obtain ⟨rfl, rfl, -⟩ := hst
    have hnext := ((hcalls _ List.mem_cons_self).next ht).2 hm
    intro l hl
    rcases List.mem_cons.mp hl with rfl | hl
    · exact hnext
    · exact ih (fun m hm => hcalls m (List.mem_cons_of_mem _ hm)) hnext l hl

/-- The call lowered the rate. -/
def Call.drops (l : Call) : Bool := decide (l.after.rate < l.before.rate)

/-- The rate comes down once while startup lasts, and not after. -/
theorem drops_of_trace {q : ℚ} {c c' : RateController} {calls : List Call}
    (h : Runs.Trace Called c calls c') (hcalls : ∀ l ∈ calls, LineCall q l.before l.report) :
    calls.countP Call.drops ≤ if c.startup then 1 else 0 := by
  induction h with
  | nil => exact Nat.zero_le _
  | @cons c _ _ l calls hst _ ih =>
    have hstart := hst.startup
    obtain ⟨e, ht⟩ := hst.takes
    obtain ⟨rfl, rfl, -⟩ := hst
    have hrest := ih fun m hm => hcalls m (List.mem_cons_of_mem _ hm)
    rw [List.countP_cons]
    rcases (hcalls l List.mem_cons_self).rate ht with hle | rfl
    · -- No drop here: the calls that follow have startup left only if this one had.
      rw [if_neg (by simpa [Call.drops] using hle)]
      cases hs : l.before.startup with
      | true =>
        refine le_trans hrest ?_
        split <;> simp
      | false =>
        rw [hstart hs] at hrest
        exact hrest
    · obtain ⟨hon, hoff⟩ := ht.plateau
      rw [hoff] at hrest
      rw [hon]
      simp only [Bool.false_eq_true, if_false, Nat.le_zero] at hrest
      rw [hrest]
      split <;> simp

/-- **Random loss never causes a back-off.** From a new controller, through
reports that lie on one loss line with `q` received of each one sent: no report
takes the congestion branch or starts a cooldown; from the first interval with
a signal on, the smoothed loss and the floor are `1 - q`; once startup has ended
the rate does not come down, and in the whole run it does at most once, on the
plateau that ends startup. -/
theorem random_loss_no_backoff (seg : Nat) (maxRateMbps : ℚ) {q : ℚ} (hq : 0 < q) (hq1 : q ≤ 1)
    {calls : List Call} {c : RateController}
    (h : Runs.Trace Called (.new seg maxRateMbps) calls c)
    (hline : LossLine q seg (calls.map (·.report))) :
    (∀ l ∈ calls, ¬ l.before.Cuts l.report ∧ l.after.cooldown = 0) ∧
    (∀ pre l post, calls = pre ++ l :: post → l.before.signal l.report ≠ none →
      ∀ m ∈ l :: post, m.after.lossEwma = some (1 - q) ∧
        ∃ fr, m.after.lossFloor = some (1 - q, fr)) ∧
    (∀ l ∈ calls, l.before.startup = false → l.before.rate ≤ l.after.rate) ∧
    (∀ l ∈ calls, l.after.rate < l.before.rate →
      Takes l.before l.report (.decided .plateau) l.after) ∧
    calls.countP (fun l => decide (l.after.rate < l.before.rate)) ≤ 1 := by
  have hcalls := lineCalls hq hq1 h ⟨.inl ⟨rfl, rfl⟩, rfl⟩ (bounded_new seg maxRateMbps)
    (fun last hlast => nomatch hlast) hline
  have htakes := takes_of_trace h
  have hdrop : ∀ l ∈ calls, l.after.rate < l.before.rate →
      Takes l.before l.report (.decided .plateau) l.after := by
    intro l hl hlt
    obtain ⟨-, e, ht⟩ := htakes l hl
    rcases (hcalls l hl).rate ht with hle | rfl
    · exact absurd hlt (not_lt.mpr hle)
    · exact ht
  refine ⟨?_, ?_, ?_, hdrop, drops_of_trace h hcalls⟩
  · intro l hl
    obtain ⟨-, e, ht⟩ := htakes l hl
    exact ⟨(hcalls l hl).not_cuts, ((hcalls l hl).next ht).1.cooldown⟩
  · intro pre l post heq hsig
    subst heq
    obtain ⟨u, -, h⟩ := h.split
    cases h with
    | cons hst h =>
      have hmem : l ∈ pre ++ l :: post := List.mem_append_right _ List.mem_cons_self
      obtain ⟨-, e, ht⟩ := htakes l hmem
      have hm := ((hcalls l hmem).measured ht hsig).1
      obtain ⟨-, rfl, -⟩ := hst
      intro m hm'
      rcases List.mem_cons.mp hm' with rfl | hm'
      · exact hm
      · exact measured_of_trace h (fun k hk => hcalls k
          (List.mem_append_right _ (List.mem_cons_of_mem _ hk))) hm m hm'
  · intro l hl hs
    by_contra hlt
    obtain ⟨hon, -⟩ := (hdrop l hl (not_le.mp hlt)).plateau
    rw [hs] at hon
    cases hon

/-- The doubling run is on the line of half the packets lost. -/
theorem random_loss_doubled : doubledExample.lossEwma = some (1 - 1 / 2) ∧
    doublingCalls.countP (fun l => decide (l.after.rate < l.before.rate)) ≤ 1 := by
  obtain ⟨-, hloss, -, -, hcount⟩ := random_loss_no_backoff 1224 5000
    (show (0 : ℚ) < 1 / 2 by norm_num) (by norm_num) doublingCalls_trace
    (List.pairwise_pair.mpr ⟨by decide, by decide, by decide +kernel⟩)
  exact ⟨(hloss [_] _ [] rfl (by decide +kernel) _ List.mem_cons_self).1, hcount⟩

end AtpExperiment
