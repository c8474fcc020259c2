/-
The controller on a bottleneck.

`Passes` is what a report says of a path without a queue: what is sent under the
capacity passes except for a constant share, and no more than the capacity does. The
controller's state is then read as the three numbers of `Gauge` (`Reads`), and once
startup is over a report moves them as `Gauge.Tick` says (`Reads.tick`).
-/
import AtpExperiment.RateDiscipline
import AtpExperiment.RateLoop
import AtpExperiment.Lib.TimeWindow
import Mathlib.Algebra.Order.Group.MinMax

namespace AtpExperiment

open Rate Gauge

/-! ## What a report does -/

namespace RateController

variable {c c' k k' : RateController} {r : ProgressReport} {σ : Signal}

/-- What a decision on a saturated interval can do, and when. -/
inductive Acts (k : RateController) (raw loss f m d : ℚ) : RateController → Prop
  | cut {k' : RateController}
    (h : cutExcess ≤ loss - f ∨ k.startup = true ∧ startupAbortExcess ≤ raw - f)
    (hk : k.cut m = .ok k') : Acts k raw loss f m d k'
  | slow (hs : k.startup = false) (hx : loss - f < cutExcess) :
    Acts k raw loss f m d { k with rate := min (k.rate * growthSlow) k.max }
  | steady (hs : k.startup = false) (hx : loss - f < cutExcess)
    (hanchor : k.rate < m / (1 - min f (1 / 2))) :
    Acts k raw loss f m d { k with rate := min (k.rate * growthSteady) k.max }
  | double (hs : k.startup = true) (hx : loss - f ≤ cleanExcess)
    (hd : k.bestDelivered * startupGrowthMin < d) :
    Acts k raw loss f m d
      { k with
        bestDelivered := d
        stagnant := 0
        rate := min (k.rate * growthStartup) k.max }
  | flat {k' : RateController} (hs : k.startup = true) (hx : loss - f ≤ cleanExcess)
    (hd : d ≤ k.bestDelivered * startupGrowthMin) : Acts k raw loss f m d k'
  | hold (hs : k.startup = true) (hx : cleanExcess < loss - f) (hx' : loss - f < cutExcess)
    (hraw : raw - f < startupAbortExcess) : Acts k raw loss f m d k

theorem decideRate_acts {raw loss f m d sent : ℚ} (hsat : growEvidenceFrac * k.rate ≤ sent)
    (h : k.decideRate raw loss f m d sent = .ok k') : Acts k raw loss f m d k' := by
  simp only [decideRate] at h
  split at h
  · next hcut => exact .cut hcut h
  next hn =>
  rw [not_or, not_le, not_and, not_le] at hn
  split at h
  · next hclean =>
    simp only [grow] at h
    split at h
    · next hslow =>
      obtain rfl := Checked.pure_eq_ok.mp h
      simp only [Bool.and_eq_true, Bool.not_eq_true'] at hslow
      exact .slow hslow.1 hn.1
    next hanchor =>
    split at h
    · next hs =>
      split at h
      · next hd =>
        obtain rfl := Checked.pure_eq_ok.mp h
        exact .double hs hclean.1 hd
      · next hd => exact .flat hs hclean.1 (not_lt.mp hd)
    · next hs =>
      obtain rfl := Checked.pure_eq_ok.mp h
      have hs := Bool.eq_false_of_not_eq_true hs
      refine .steady hs hn.1 ?_
      simpa [hs] using hanchor
  next hclean =>
  rw [not_and] at hclean
  split at h
  · next hmid =>
    obtain rfl := Checked.pure_eq_ok.mp h
    exact .slow hmid.1 hmid.2.1
  · next hmid =>
    obtain rfl := Checked.pure_eq_ok.mp h
    have hs : k.startup = true := by
      by_contra hs
      exact hmid ⟨Bool.eq_false_of_not_eq_true hs, hn.1, hsat⟩
    exact .hold hs (not_le.mp fun hx => hclean hx hsat) hn.1 (hn.2 hs)

/-- A report with a signal that saturated the rate. -/
theorem report_saturated {out : Option ℚ} (h : c.report r = .ok (out, c'))
    (hsig : c.signal r = some σ) (hb : 0 < c.rate) (hsat : c.Saturated σ) :
    ∃ ds, expire r.tMs (c.delivered ++ [(r.tMs, σ.delivered)]) = .ok ds ∧
      (0 < c.cooldown ∧ c' = { c.windowed r σ ds with cooldown := c.cooldown - 1 } ∨
        c.cooldown = 0 ∧ Acts (c.windowed r σ ds) σ.rawLoss (c.smooth σ.rawLoss) (c.floorOf σ)
          (maxDelivered ds) σ.delivered c') := by
  obtain ⟨last, hlast, hdt, hspan, hpkts, rfl⟩ := signal_eq_some hsig
  simp only [report, onReport] at h
  split at h
  · cases h
  simp only [hlast] at h
  split at h
  · next hdt' => exact absurd hdt' (not_lt.mpr hdt)
  split at h
  · next hidle => exact (hidle.elim hspan hpkts).elim
  simp only [Checked.bind_eq_ok] at h
  obtain ⟨raw, hraw, h⟩ := h
  obtain ⟨-, rfl⟩ := clamp_eq_ok.mp hraw
  simp only [onSignal] at h
  split at h
  · next happ =>
    have hsat' : growEvidenceFrac * c.rate ≤ last.sentRate (c.snap r) := hsat
    have happ' : last.sentRate (c.snap r) < appLimitedFrac * c.rate := happ
    have : appLimitedFrac * c.rate ≤ growEvidenceFrac * c.rate :=
      mul_le_mul_of_nonneg_right (by norm_num [appLimitedFrac, growEvidenceFrac]) hb.le
    linarith
  simp only [Checked.bind_eq_ok] at h
  obtain ⟨ds, hds, h⟩ := h
  refine ⟨ds, hds, ?_⟩
  split at h
  · next hcool =>
    obtain ⟨-, rfl⟩ := Prod.mk.inj (Checked.pure_eq_ok.mp h)
    exact .inl ⟨hcool, rfl⟩
  next hcool =>
  simp only [Checked.bind_eq_ok, Checked.pure_eq_ok, Prod.mk.injEq] at h
  obtain ⟨c'', hd, -, rfl⟩ := h
  exact .inr ⟨Nat.eq_zero_of_not_pos hcool, decideRate_acts hsat hd⟩

theorem report_quiet {out : Option ℚ} (h : c.report r = .ok (out, c')) (hsig : c.signal r = none) :
    c' = c ∨ c' = { c with last := some (c.snap r) } := by
  obtain ⟨e, ht⟩ := report_takes h
  cases ht with
  | quiet _ hc => exact hc
  | appLimited hs | cooling hs | decided hs => cases hsig.symm.trans hs

/-! ## The window -/

theorem mem_expire {t : UInt64} {d : ℚ} {ds ds' : List (UInt64 × ℚ)}
    (h : expire t (ds ++ [(t, d)]) = .ok ds') : (t, d) ∈ ds' := by
  induction ds with
  | nil =>
    simp only [List.nil_append, expire, Checked.bind_eq_ok] at h
    obtain ⟨limit, hlimit, h⟩ := h
    have hle : ¬ limit < t := by
      rw [UInt64.lt_iff_toNat_lt, Checked.addU64_eq_ok hlimit]
      omega
    rw [if_neg hle] at h
    obtain rfl := Checked.pure_eq_ok.mp h
    exact List.mem_singleton_self _
  | cons a ds ih =>
    simp only [List.cons_append, expire, Checked.bind_eq_ok] at h
    obtain ⟨limit, -, h⟩ := h
    split at h
    · exact ih h
    · obtain rfl := Checked.pure_eq_ok.mp h
      simp

end RateController

/-! ## The path -/

/-- The signal of an interval on a path without a queue, of capacity `B`, that loses the
share `1 - q` of what is under it: the loss to within a thousandth, and what is delivered
to within two; and the sender was not the limit. -/
structure Passes (B q : ℚ) (c : RateController) (σ : Signal) : Prop where
  saturated : c.Saturated σ
  loss : |σ.rawLoss - (1 - q * min 1 (B / c.rate))| ≤ 1 / 1000
  delivered : |σ.delivered - q * min c.rate B| ≤ q * min c.rate B / 500

/-- What the controller has measured, in the numbers of the loop; the floor was anchored
at the rate `fr`. -/
structure Reads (B q : ℚ) (c : RateController) (g : Gauge) (fr : ℚ) : Prop where
  pos : 0 < c.rate
  load : c.rate * g.load = q * B
  loss : c.lossEwma = some (1 - q + g.loss)
  floor : c.lossFloor = some (1 - q + g.floor, fr)
  cooldown : c.cooldown = g.cooldown

section Path

variable {B q fr : ℚ} {c c' : RateController} {g : Gauge} {σ : Signal}

theorem loss_eq (hrate : 0 < c.rate) (hload : c.rate * g.load = q * B) (hq : 0 ≤ q) :
    1 - q * min 1 (B / c.rate) = 1 - q + max 0 (q - g.load) := by
  have hq' : q * (B / c.rate) = g.load := by
    rw [← mul_div_assoc, ← hload, mul_div_cancel_left₀ _ hrate.ne']
  rw [mul_min_of_nonneg _ _ hq, mul_one, hq']
  rcases le_total q g.load with h | h
  · rw [min_eq_left h, max_eq_left (by linarith)]
    ring
  · rw [min_eq_right h, max_eq_right (by linarith)]
    ring

/-- The loss and the floor after a report, above the path's own loss. -/
def RateController.lossAfter (q : ℚ) (c : RateController) (σ : Signal) : ℚ :=
  c.smooth σ.rawLoss - (1 - q)

def RateController.floorAfter (q : ℚ) (c : RateController) (σ : Signal) : ℚ :=
  c.floorOf σ - (1 - q)

theorem RateController.after_sub (q : ℚ) (c : RateController) (σ : Signal) :
    c.lossAfter q σ - c.floorAfter q σ = c.smooth σ.rawLoss - c.floorOf σ := by
  simp only [lossAfter, floorAfter]
  ring

/-- What a report measures, in the numbers of the loop. The floor is relaxed slowly where
the rate is well above the one it was anchored at. -/
theorem Reads.senses (hg : Reads B q c g fr) (hq : 0 ≤ q)
    (hσ : Passes B q c σ) : ∃ ρ fr',
      0 ≤ ρ ∧ ρ ≤ 1 / 50 ∧ (fr * (105 / 100) < c.rate → ρ = 1 / 250) ∧
      Senses q ρ g (c.lossAfter q σ) (c.floorAfter q σ) ∧
      (c.trackFloor (c.smooth σ.rawLoss)).2 = some (c.floorOf σ, fr') ∧
      (fr' = fr ∨ fr' = c.rate ∧ c.smooth σ.rawLoss ≤ c.floorOf σ) := by
  have hloss := abs_le.mp hσ.loss
  rw [loss_eq hg.pos hg.load hq] at hloss
  have hsmooth : c.smooth σ.rawLoss =
      (1 - lossEwmaAlpha) * (1 - q + g.loss) + lossEwmaAlpha * σ.rawLoss := by
    simp only [RateController.smooth, hg.loss]
  simp only [lossEwmaAlpha] at hsmooth
  simp only [RateController.lossAfter, RateController.floorAfter, RateController.floorOf]
  generalize c.smooth σ.rawLoss = loss at hsmooth
  have hlow : 7 / 10 * g.loss + 3 / 10 * (max 0 (q - g.load) - 1 / 1000) ≤ loss - (1 - q) := by
    linarith [hloss.1]
  have hhigh : loss - (1 - q) ≤ 7 / 10 * g.loss + 3 / 10 * (max 0 (q - g.load) + 1 / 1000) := by
    linarith [hloss.2]
  simp only [RateController.trackFloor, hg.floor, hg.cooldown]
  split
  · next h =>
    refine ⟨1 / 250, fr, by norm_num, by norm_num, fun _ => rfl, ⟨hlow, hhigh, ?_⟩, rfl, .inl rfl⟩
    simp only [add_sub_cancel_left]
    exact .held (by linarith [h.1]) h.2
  next hheld =>
  split
  · next h =>
    have hcool : g.cooldown = 0 := Nat.eq_zero_of_not_pos fun hc => hheld ⟨h, hc⟩
    refine ⟨if c.rate ≤ fr * floorRateTol then floorRelax else floorRelaxSlow, fr, ?_, ?_, ?_,
      ⟨hlow, hhigh, ?_⟩, rfl, .inl rfl⟩
    · split <;> norm_num [floorRelax, floorRelaxSlow]
    · split <;> norm_num [floorRelax, floorRelaxSlow]
    · intro hlt
      rw [if_neg (by norm_num [floorRateTol] at hlt ⊢; exact hlt)]
      norm_num [floorRelaxSlow]
    · have hmin : min loss (1 - q + g.floor + cutExcess) - (1 - q + g.floor) =
          min (loss - (1 - q) - g.floor) (1 / 20) := by
        rw [← min_sub_sub_right]
        congr 1
        · ring
        · norm_num [cutExcess]
      simp only [hmin]
      rw [show ∀ x : ℚ, 1 - q + g.floor + x - (1 - q) = g.floor + x by intro x; ring]
      exact .relaxed (by linarith) hcool
  · next h =>
    refine ⟨1 / 250, c.rate, by norm_num, by norm_num, fun _ => rfl, ⟨hlow, hhigh, ?_⟩, rfl,
      .inr ⟨rfl, ?_⟩⟩
    swap
    · norm_num [floorFall]
      linarith [not_le.mp h]
    have he : 1 - q + g.floor + floorFall * (loss - (1 - q + g.floor)) - (1 - q) =
        g.floor + 3 / 10 * (loss - (1 - q) - g.floor) := by
      simp only [floorFall]
      ring
    simp only [he]
    exact .fell (by linarith [not_le.mp h])

/-! ## After startup -/

/-- Nothing in the window is above what the path delivers. -/
def Capped (B q : ℚ) (c : RateController) : Prop :=
  ∀ s ∈ c.delivered, s.2 ≤ 1002 / 1000 * (q * B)

/-- The window with a report's sample: its maximum is at least the sample, and at most
what the path delivers. -/
theorem Capped.window (hw : Capped B q c) (hσ : Passes B q c σ) (hq : 0 ≤ q) (hB : 0 ≤ B)
    {t : UInt64} {ds : List (UInt64 × ℚ)}
    (hds : RateController.expire t (c.delivered ++ [(t, σ.delivered)]) = .ok ds) :
    (∀ s ∈ ds, s.2 ≤ 1002 / 1000 * (q * B)) ∧ σ.delivered ≤ RateController.maxDelivered ds ∧
      RateController.maxDelivered ds ≤ 1002 / 1000 * (q * B) := by
  have hnew : σ.delivered ≤ 1002 / 1000 * (q * B) := by
    have hle := (abs_le.mp hσ.delivered).2
    have hmin : q * min c.rate B ≤ q * B := mul_le_mul_of_nonneg_left (min_le_right _ _) hq
    linarith
  have hall : ∀ s ∈ ds, s.2 ≤ 1002 / 1000 * (q * B) := by
    intro s hs
    rcases List.mem_append.mp (RateController.mem_of_mem_expire hds s hs) with hs | hs
    · exact hw s hs
    · rw [List.mem_singleton.mp hs]
      exact hnew
  refine ⟨hall, ?_, ?_⟩
  · have hmax := TimeWindow.foldl_max_le_iff.mp (le_refl (ds.foldl (fun m s => max m s.2) 0))
    exact hmax.2 _ (RateController.mem_expire hds)
  · exact TimeWindow.foldl_max_le_iff.mpr ⟨by positivity, hall⟩

theorem Passes.delivered_ge (hσ : Passes B q c σ) (hover : B ≤ c.rate) :
    998 / 1000 * (q * B) ≤ σ.delivered := by
  have hle := (abs_le.mp hσ.delivered).1
  rw [min_eq_right hover] at hle
  linarith

/-- A cut from above the capacity lands on what was delivered, or a tenth below the
rate. -/
theorem cut_lands {k k' : RateController} {m : ℚ} (hB : startRateBps ≤ B) (hq : 9 / 10 ≤ q)
    (hover : B ≤ k.rate) (hm₁ : 998 / 1000 * (q * B) ≤ m) (hm₂ : m ≤ 1002 / 1000 * (q * B))
    (h : k.cut m = .ok k') : ∃ load rate, 0 < rate ∧ rate * load = q * B ∧ 998 / 1000 ≤ load ∧
      898 / 1000 * load ≤ q ∧ k' = { k with startup := false, rate, cooldown := cutCooldown } := by
  obtain ⟨rate, hrate, rfl⟩ := RateController.cut_eq_ok h
  obtain ⟨-, rfl⟩ := clamp_eq_ok.mp hrate
  norm_num [startRateBps] at hB
  have hqB : 9 / 10 * B ≤ q * B := mul_le_mul_of_nonneg_right hq (by linarith)
  have hceil : max (k.rate * cutMinFactor) minRateBps = k.rate * (9 / 10) := by
    norm_num [cutMinFactor, minRateBps]
    linarith
  have hr : max minRateBps (min m (max (k.rate * cutMinFactor) minRateBps)) =
      min m (k.rate * (9 / 10)) := by
    rw [hceil]
    refine max_eq_right (le_min ?_ ?_) <;> norm_num [minRateBps] <;> linarith
  rw [hr]
  have hlow : 898 / 1000 * B ≤ min m (k.rate * (9 / 10)) := le_min (by linarith) (by linarith)
  have hpos : 0 < min m (k.rate * (9 / 10)) := by linarith
  have hhigh : min m (k.rate * (9 / 10)) ≤ 1002 / 1000 * (q * B) := (min_le_left _ _).trans hm₂
  refine ⟨q * B / min m (k.rate * (9 / 10)), _, hpos, mul_div_cancel₀ _ hpos.ne', ?_, ?_, rfl⟩
  · rw [le_div_iff₀ hpos]
    linarith
  · rw [← mul_div_assoc, div_le_iff₀ hpos]
    have := mul_le_mul_of_nonneg_left hlow (show 0 ≤ q by linarith)
    linarith

/-- Near the bottleneck the rate is at most 1.3 times the capacity. -/
theorem Reads.rate_near (hg : Reads B q c g fr) (hnear : g.Near q) (hq : 9 / 10 ≤ q)
    (hq1 : q ≤ 1) (hB : 0 < B) : 89 / 100 * B ≤ c.rate ∧ c.rate ≤ 13 / 10 * B := by
  obtain ⟨hge, hle, -⟩ := hnear.bounds hq1
  have hload := hg.load
  have h₁ : c.rate * (q - 197 / 1000) ≤ q * B := by
    rw [← hload]
    exact mul_le_mul_of_nonneg_left hge hg.pos.le
  have h₂ : 898 / 1000 * (q * B) ≤ c.rate * q := by
    rw [← hload]
    have := mul_le_mul_of_nonneg_left hle hg.pos.le
    linarith
  constructor
  · have : 898 / 1000 * B ≤ c.rate := by
      refine le_of_mul_le_mul_left ?_ (show 0 < q by linarith)
      linarith
    linarith
  · by_contra hlt
    rw [not_le] at hlt
    have : 13 / 10 * B * (q - 197 / 1000) < c.rate * (q - 197 / 1000) :=
      mul_lt_mul_of_pos_right hlt (by linarith)
    have : 9 / 10 * B ≤ q * B := mul_le_mul_of_nonneg_right hq hB.le
    linarith

theorem Reads.of_sampled {k : RateController} {load : ℚ} {n : Nat} (hpos : 0 < k.rate)
    (hload : k.rate * load = q * B) (hloss : k.lossEwma = some (c.smooth σ.rawLoss))
    (hfloor : k.lossFloor = some (c.floorOf σ, fr)) (hn : k.cooldown = n) :
    Reads B q k ⟨load, c.lossAfter q σ, c.floorAfter q σ, n⟩ fr where
  pos := hpos
  load := hload
  loss := by simp only [hloss, RateController.lossAfter, add_sub_cancel]
  floor := by simp only [hfloor, RateController.floorAfter, add_sub_cancel]
  cooldown := hn

theorem Reads.grows (hg : Reads B q c g fr) {x M : ℚ} (hx : 0 < x) (hM : c.rate * x ≤ M) :
    0 < min (c.rate * x) M ∧ min (c.rate * x) M * (g.load / x) = q * B := by
  rw [min_eq_left hM]
  refine ⟨mul_pos hg.pos hx, ?_⟩
  rw [← hg.load]
  field_simp

/-- At a load of at most `q` the rate is over the capacity. -/
theorem Reads.above (hg : Reads B q c g fr) (hq : 0 < q) (hload : g.load ≤ q) : B ≤ c.rate := by
  refine le_of_mul_le_mul_left ?_ hq
  rw [← hg.load, mul_comm]
  exact mul_le_mul_of_nonneg_right hload hg.pos.le

theorem Reads.cut (hg : Reads B q c g fr) (hB : startRateBps ≤ B) (hq : 9 / 10 ≤ q)
    {k k' : RateController} (hk : k.rate = c.rate) {m : ℚ} (hge : σ.delivered ≤ m)
    (hle : m ≤ 1002 / 1000 * (q * B)) (hσ : Passes B q c σ) (h : k.cut m = .ok k') :
    ∃ load rate, 0 < rate ∧ rate * load = q * B ∧
      (g.load ≤ q → 998 / 1000 ≤ load ∧ 898 / 1000 * load ≤ q) ∧
      k' = { k with startup := false, rate, cooldown := cutCooldown } := by
  by_cases hload : g.load ≤ q
  · have hover := hg.above (by linarith) hload
    obtain ⟨load, rate, hpos, hload', h₁, h₂, rfl⟩ := cut_lands hB hq (hk ▸ hover)
      ((hσ.delivered_ge hover).trans hge) hle h
    exact ⟨load, rate, hpos, hload', fun _ => ⟨h₁, h₂⟩, rfl⟩
  · obtain ⟨rate, hrate, rfl⟩ := RateController.cut_eq_ok h
    have hpos : 0 < rate := lt_of_lt_of_le minRateBps_pos (clamp_mem hrate).1
    exact ⟨q * B / rate, rate, hpos, mul_div_cancel₀ _ hpos.ne', fun h => absurd h hload, rfl⟩

theorem Reads.anchor (hg : Reads B q c g fr) {f m : ℚ}
    (hm : m ≤ 1002 / 1000 * (q * B)) (hload : 0 < g.load)
    (hlt : c.rate < m / (1 - min (1 - q + f) (1 / 2))) : q - f < 1002 / 1000 * g.load := by
  by_cases hpos : 0 < q - f
  · have hle : q - f ≤ 1 - min (1 - q + f) (1 / 2) := by linarith [min_le_left (1 - q + f) (1 / 2)]
    have hlt' : c.rate * (q - f) < 1002 / 1000 * (c.rate * g.load) := by
      rw [hg.load]
      refine lt_of_lt_of_le ?_ hm
      rw [lt_div_iff₀ (by linarith)] at hlt
      exact lt_of_le_of_lt (mul_le_mul_of_nonneg_left hle hg.pos.le) hlt
    refine lt_of_mul_lt_mul_left ?_ hg.pos.le
    linarith
  · linarith

/-- After startup a report is a tick. -/
theorem Reads.tick (hB : startRateBps ≤ B) (hq : 9 / 10 ≤ q) (hq1 : q ≤ 1) (hcap : 3 * B ≤ c.max)
    (hs : c.startup = false) (hg : Reads B q c g fr) (hnear : g.Near q) (hw : Capped B q c)
    {r : ProgressReport} {out : Option ℚ} (h : c.report r = .ok (out, c'))
    (hsig : c.signal r = some σ) (hσ : Passes B q c σ) :
    ∃ g' fr', Reads B q c' g' fr' ∧ Tick q g g' ∧ c'.startup = false ∧ Capped B q c' := by
  have hB₀ : 0 < B := lt_of_lt_of_le (by norm_num [startRateBps]) hB
  obtain ⟨ρ, fr', h₀, h₁, -, hsense, htrack, -⟩ := hg.senses (by linarith) hσ
  obtain ⟨ds, hds, hact⟩ := RateController.report_saturated h hsig hg.pos hσ.saturated
  obtain ⟨hall, hge, hle⟩ := hw.window hσ (by linarith) hB₀.le hds
  have hload : 0 < g.load := by linarith [(hnear.bounds hq1).1]
  have hrate := (hg.rate_near hnear hq hq1 hB₀).2
  have hcool := hg.cooldown
  rcases hact with ⟨hc, rfl⟩ | ⟨hc, hact⟩
  · exact ⟨_, fr', .of_sampled hg.pos hg.load rfl htrack (by rw [← hcool]),
      .cool h₀ h₁ hsense (hcool ▸ hc), hs, hall⟩
  · have hc' : g.cooldown = 0 := hcool.symm.trans hc
    have hexcess := c.after_sub q σ
    cases hact with
    | cut hx hk =>
      have hx' : 1 / 20 ≤ c.lossAfter q σ - c.floorAfter q σ := by
        rcases hx with hx | ⟨hx, -⟩
        · rw [hexcess]
          norm_num [cutExcess] at hx ⊢
          exact hx
        · cases hs.symm.trans hx
      obtain ⟨load, rate, hpos, hload', hlands, rfl⟩ := hg.cut hB hq (by rfl) hge hle hσ hk
      exact ⟨_, fr', .of_sampled hpos hload' rfl htrack rfl,
        .cut h₀ h₁ hsense hc' hx' hlands, rfl, hall⟩
    | slow _ hx =>
      have hx' : c.lossAfter q σ - c.floorAfter q σ < 1 / 20 := by
        rw [hexcess]
        norm_num [cutExcess] at hx ⊢
        exact hx
      obtain ⟨hpos, hload'⟩ := hg.grows (x := growthSlow) (M := c.max) (by norm_num [growthSlow])
        (by norm_num [growthSlow]; linarith)
      exact ⟨_, fr', .of_sampled hpos hload' rfl htrack hc, .slow h₀ h₁ hsense hc' hx', hs, hall⟩
    | steady _ hx hanchor =>
      have hx' : c.lossAfter q σ - c.floorAfter q σ < 1 / 20 := by
        rw [hexcess]
        norm_num [cutExcess] at hx ⊢
        exact hx
      have hanchor' : q - c.floorAfter q σ < 1002 / 1000 * g.load := by
        refine hg.anchor hle hload ?_
        simp only [RateController.floorAfter, add_sub_cancel]
        exact hanchor
      obtain ⟨hpos, hload'⟩ := hg.grows (x := growthSteady) (M := c.max)
        (by norm_num [growthSteady]) (by norm_num [growthSteady]; linarith)
      exact ⟨_, fr', .of_sampled hpos hload' rfl htrack hc,
        .steady h₀ h₁ hsense hc' hx' hanchor', hs, hall⟩
    | double hs' | flat hs' | hold hs' => cases hs.symm.trans hs'

end Path

end AtpExperiment
