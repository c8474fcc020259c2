/-
The controller finds the bottleneck.

On a path without a queue startup doubles the rate until it is over the capacity
(`Doubles`), maybe once too often, or waits there for the loss to tell (`Stage`); the cut
that ends it lands near the capacity, and from there on the rate stays near it
(`bottleneck_found`).
-/
import AtpExperiment.Bottleneck
import Mathlib.Algebra.Order.Archimedean.Basic

namespace AtpExperiment

open Rate Gauge

section Path

variable {B q fr : ℚ} {c c' : RateController} {g : Gauge} {σ : Signal}

/-! ## Stages -/

/-- Startup doubles the rate, and has measured nothing but the path's own loss; there
were `n` signals. -/
structure Doubles (B q : ℚ) (n : Nat) (c : RateController) : Prop where
  startup : c.startup = true
  rate : c.rate = 2 ^ n * startRateBps
  le : c.rate ≤ 2 * B
  best : c.bestDelivered ≤ 1002 / 1000 * (q * (c.rate / 2))
  cooldown : c.cooldown = 0
  reads : n = 0 ∧ c.lossEwma = none ∧ c.lossFloor = none ∨
    ∃ g fr, Reads B q c g fr ∧ g.Quiet ∧ fr ≤ c.rate / 2

/-- Where the controller is after `n` signals, on a path whose capacity startup is over
after `m` doublings. -/
inductive Stage (B q : ℚ) (m n : Nat) (c : RateController) : Prop
  | doubling (h : Doubles B q n c)
  | overshot {g : Gauge} {fr : ℚ} (hs : c.startup = true) (hg : Reads B q c g fr)
    (h : g.Overshot q) (hn : n ≤ m + 1)
  | creeping {j : Nat} {g : Gauge} {fr : ℚ} (hs : c.startup = true) (hg : Reads B q c g fr)
    (hfr : fr ≤ c.rate / 2) (h : g.Creeps q j) (hn : n ≤ m + j)
  | found {g : Gauge} {fr : ℚ} (hs : c.startup = false) (hg : Reads B q c g fr) (h : g.Near q)

theorem Doubles.pos {n : Nat} (h : Doubles B q n c) : 0 < c.rate := by
  rw [h.rate]
  norm_num [startRateBps]

theorem Reads.raw (hg : Reads B q c g fr) (hq : 0 ≤ q) (hσ : Passes B q c σ) :
    max 0 (q - g.load) - 1 / 1000 ≤ σ.rawLoss - (1 - q) ∧
      σ.rawLoss - (1 - q) ≤ max 0 (q - g.load) + 1 / 1000 := by
  have hloss := abs_le.mp hσ.loss
  rw [loss_eq hg.pos hg.load hq] at hloss
  exact ⟨by linarith [hloss.1], by linarith [hloss.2]⟩

/-- Under the capacity what is delivered has doubled with the rate. -/
theorem Doubles.not_flat {n : Nat} (h : Doubles B q n c) (hq : 0 < q) (hσ : Passes B q c σ)
    (hunder : 3 / 4 * c.rate ≤ B) : c.bestDelivered * startupGrowthMin < σ.delivered := by
  have hd := (abs_le.mp hσ.delivered).1
  have hbest := h.best
  have hmin : q * (3 / 4 * c.rate) ≤ q * min c.rate B :=
    mul_le_mul_of_nonneg_left (le_min (by linarith [h.pos]) hunder) hq.le
  have hpos := mul_pos hq h.pos
  norm_num [startupGrowthMin]
  linarith

theorem Doubles.next {n : Nat} {k : RateController} (h : Doubles B q n c)
    (hunder : c.rate ≤ B) (hcap : 3 * B ≤ k.max) (hσ : Passes B q c σ) (hk : k.rate = c.rate)
    (hs : k.startup = true) (hc : k.cooldown = 0) {g : Gauge} {fr : ℚ}
    (hg : Reads B q { k with bestDelivered := σ.delivered, stagnant := 0, rate := c.rate * 2 } g fr)
    (hquiet : g.Quiet) (hfr : fr ≤ c.rate) : Doubles B q (n + 1) { k with
      bestDelivered := σ.delivered
      stagnant := 0
      rate := min (k.rate * growthStartup) k.max } := by
  have hrate : min (k.rate * growthStartup) k.max = c.rate * 2 := by
    rw [hk]
    refine min_eq_left ?_
    norm_num [growthStartup]
    linarith [h.pos]
  rw [hrate]
  have hd := (abs_le.mp hσ.delivered).2
  rw [min_eq_left hunder] at hd
  refine ⟨hs, ?_, ?_, ?_, hc, .inr ⟨g, fr, hg, hquiet, ?_⟩⟩
  · simp only [h.rate]
    ring
  · simp only
    linarith
  · simp only
    linarith
  · simp only
    linarith

/-- Startup ends with a cut from above the capacity, near the bottleneck. -/
theorem Stage.of_cut {m n : Nat} (hB : startRateBps ≤ B) (hq : 9 / 10 ≤ q)
    (hg : Reads B q c g fr) (hstart : g.Starts q) (hover : g.load ≤ q) (hσ : Passes B q c σ)
    {ρ fr' M : ℚ} {r : ProgressReport} {ds : List (UInt64 × ℚ)} (h₀ : 0 ≤ ρ) (h₁ : ρ ≤ 1 / 50)
    (hsense : Senses q ρ g (c.lossAfter q σ) (c.floorAfter q σ))
    (htrack : (c.trackFloor (c.smooth σ.rawLoss)).2 = some (c.floorOf σ, fr'))
    (hge : σ.delivered ≤ M) (hle : M ≤ 1002 / 1000 * (q * B))
    (hx : cutExcess ≤ c.smooth σ.rawLoss - c.floorOf σ ∨
      startupAbortExcess ≤ σ.rawLoss - c.floorOf σ)
    (hk : (c.windowed r σ ds).cut M = .ok c') :
    Stage B q m n c' ∧ c'.delivered = ds := by
  obtain ⟨load, rate, hpos, hload', hlands, rfl⟩ := hg.cut hB hq (by rfl) hge hle hσ hk
  refine ⟨.found rfl (.of_sampled hpos hload' rfl htrack rfl) (.drains le_rfl ?_), rfl⟩
  refine hstart.cut h₀ h₁ hsense hover ?_ (hlands hover)
  simp only [RateController.lossAfter, RateController.floorAfter]
  rcases hx with hx | hx
  · left
    norm_num [cutExcess] at hx ⊢
    exact hx
  · right
    have hraw := (hg.raw (by linarith) hσ).2
    rw [max_eq_right (by linarith)] at hraw
    norm_num [startupAbortExcess] at hx ⊢
    linarith

theorem Passes.raw_under (hσ : Passes B q c σ) (hpos : 0 < c.rate) (hunder : c.rate ≤ B) :
    -1 / 1000 ≤ σ.rawLoss - (1 - q) ∧ σ.rawLoss - (1 - q) ≤ 1 / 1000 := by
  have hloss := abs_le.mp hσ.loss
  rw [min_eq_left ((one_le_div hpos).mpr hunder), mul_one] at hloss
  exact ⟨by linarith [hloss.1], hloss.2⟩

theorem Doubles.first {m n : Nat} (h : Doubles B q n c) (hq : 0 < q) (hunder : c.rate ≤ B)
    (hloss : c.lossEwma = none) (hfloor : c.lossFloor = none) (hcap : 3 * B ≤ c.max)
    (hσ : Passes B q c σ) {M : ℚ} {r : ProgressReport} {ds : List (UInt64 × ℚ)}
    (hact : (c.windowed r σ ds).Acts σ.rawLoss (c.smooth σ.rawLoss) (c.floorOf σ) M σ.delivered
      c') : Stage B q m (n + 1) c' ∧ c'.delivered = ds := by
  have hpos := h.pos
  have hsmooth : c.smooth σ.rawLoss = σ.rawLoss := by simp [RateController.smooth, hloss]
  have htrack : c.trackFloor σ.rawLoss = (σ.rawLoss, some (σ.rawLoss, c.rate)) := by
    simp [RateController.trackFloor, hfloor]
  have hfl : c.floorOf σ = σ.rawLoss := by rw [RateController.floorOf, hsmooth, htrack]
  have hexcess : c.smooth σ.rawLoss - c.floorOf σ = 0 := by rw [hsmooth, hfl, sub_self]
  have hraw : σ.rawLoss - c.floorOf σ = 0 := by rw [hfl, sub_self]
  cases hact with
  | cut hx =>
    rw [hexcess, hraw] at hx
    norm_num [cutExcess, startupAbortExcess] at hx
  | slow hs | steady hs => cases h.startup.symm.trans hs
  | flat _ _ hd => exact absurd (h.not_flat hq hσ (by linarith)) (not_lt.mpr hd)
  | hold _ hx =>
    rw [hexcess] at hx
    norm_num [cleanExcess] at hx
  | double =>
    obtain ⟨hlow, hhigh⟩ := hσ.raw_under hpos hunder
    have hloss' : c.lossAfter q σ = σ.rawLoss - (1 - q) := by
      rw [RateController.lossAfter, hsmooth]
    have hfloor' : c.floorAfter q σ = σ.rawLoss - (1 - q) := by
      rw [RateController.floorAfter, hfl]
    refine ⟨.doubling (h.next hunder hcap hσ rfl h.startup h.cooldown
      (.of_sampled (c := c) (σ := σ) (by positivity) (mul_div_cancel₀ (q * B) (by positivity)) rfl
        (by simp only [RateController.windowed, RateController.sampled, hsmooth, htrack, hfl])
        h.cooldown)
      ⟨rfl, ⟨?_, ?_⟩, ?_, ?_⟩ le_rfl), rfl⟩
    · simp only [hloss', hlow]
    · simp only [hfloor', hlow]
    · simp only [hloss', hhigh]
    · simp only [hfloor', hhigh]

theorem Reads.under (hg : Reads B q c g fr) (hq : 0 ≤ q) (hunder : c.rate ≤ B) : q ≤ g.load := by
  refine le_of_mul_le_mul_left ?_ hg.pos
  rw [hg.load, mul_comm]
  exact mul_le_mul_of_nonneg_left hunder hq

theorem Reads.rate_mul_le (hg : Reads B q c g fr) (hq : 0 < q) {x : ℚ} (hx : x * q ≤ g.load) :
    x * c.rate ≤ B := by
  refine le_of_mul_le_mul_left ?_ hq
  rw [← hg.load]
  have := mul_le_mul_of_nonneg_left hx hg.pos.le
  linarith

theorem Doubles.few {m n : Nat} (h : Doubles B q n c) (hm : B ≤ 2 ^ m * startRateBps)
    (hle : 3 / 4 * c.rate ≤ B) : n ≤ m := by
  by_contra hlt
  have hpow : (2 : ℚ) ^ (m + 1) ≤ 2 ^ n := pow_le_pow_right₀ (by norm_num) (not_le.mp hlt)
  rw [h.rate] at hle
  have hS : 0 < startRateBps := by norm_num [startRateBps]
  have hmul := mul_le_mul_of_nonneg_right hpow hS.le
  have hpos : (0 : ℚ) < 2 ^ m * startRateBps := by positivity
  rw [pow_succ] at hmul
  linarith

section Signal

variable {m n : Nat} {M : ℚ} {r : ProgressReport} {ds : List (UInt64 × ℚ)}
  (hB : startRateBps ≤ B) (hq : 9 / 10 ≤ q) (hq1 : q ≤ 1) (hm : B ≤ 2 ^ m * startRateBps)
  (h : Doubles B q n c) (hg : Reads B q c g fr) (hquiet : g.Quiet) (hfr : fr ≤ c.rate / 2)
  (hcap : 3 * B ≤ c.max) (hσ : Passes B q c σ)
  (hact : (c.windowed r σ ds).Acts σ.rawLoss (c.smooth σ.rawLoss) (c.floorOf σ) M σ.delivered c')

include hq h hg hquiet hfr hcap hσ hact

theorem Doubles.under (hunder : c.rate ≤ B) : Stage B q m (n + 1) c' ∧ c'.delivered = ds := by
  have hpos := h.pos
  obtain ⟨ρ, fr', h₀, h₁, -, hsense, htrack, hfr'⟩ := hg.senses (by linarith) hσ
  have hraw := hg.raw (by linarith) hσ
  have hload := hg.under (by linarith) hunder
  rw [max_eq_left (by linarith)] at hraw
  have hu : Gauge.Quiet ⟨g.load / 2, c.lossAfter q σ, c.floorAfter q σ, 0⟩ ∧ _ :=
    hquiet.under h₀ h₁ hsense hload
  have hfloor : -1 / 1000 ≤ c.floorAfter q σ := hu.1.low.floor
  have hx' := hu.2
  rw [RateController.after_sub] at hx'
  simp only [RateController.floorAfter] at hfloor
  cases hact with
  | cut hx =>
    rcases hx with hx | ⟨-, hx⟩
    · norm_num [cutExcess] at hx
      linarith
    · norm_num [startupAbortExcess] at hx
      linarith [hraw.2]
  | slow hs | steady hs => cases h.startup.symm.trans hs
  | flat _ _ hd => exact absurd (h.not_flat (by linarith) hσ (by linarith)) (not_lt.mpr hd)
  | hold _ hx =>
    norm_num [cleanExcess] at hx
    linarith
  | double =>
    have hload' : c.rate * 2 * (g.load / 2) = q * B := by
      rw [← hg.load]
      ring
    refine ⟨.doubling (h.next hunder hcap hσ rfl h.startup h.cooldown
      (.of_sampled (by positivity) hload' rfl htrack h.cooldown) hu.1 ?_), rfl⟩
    rcases hfr' with rfl | ⟨rfl, -⟩ <;> linarith

include hB hq1 hm in
/-- A signal over the capacity: the end of startup, one doubling too many, or a wait. -/
theorem Doubles.above (hge : σ.delivered ≤ M) (hle : M ≤ 1002 / 1000 * (q * B))
    (hover : B ≤ c.rate) : Stage B q m (n + 1) c' ∧ c'.delivered = ds := by
  have hpos := h.pos
  obtain ⟨ρ, fr', h₀, h₁, hslow, hsense, htrack, hfr'⟩ := hg.senses (by linarith) hσ
  obtain rfl : ρ = 1 / 250 := hslow (by linarith)
  have hraw := hg.raw (by linarith) hσ
  have hload : g.load ≤ q := by
    refine le_of_mul_le_mul_left ?_ hpos
    rw [hg.load, mul_comm]
    exact mul_le_mul_of_nonneg_right hover (by linarith)
  have hhalf : q ≤ 2 * g.load := by
    refine le_of_mul_le_mul_left ?_ hpos
    have := mul_le_mul_of_nonneg_left h.le (show 0 ≤ q by linarith)
    linarith [hg.load]
  rw [max_eq_right (by linarith)] at hraw
  have hexcess := c.after_sub q σ
  have hclean : c.smooth σ.rawLoss - c.floorOf σ ≤ cleanExcess → 3 / 4 * c.rate ≤ B ∧
      Gauge.Overshot q ⟨g.load / 2, c.lossAfter q σ, c.floorAfter q σ, 0⟩ := by
    intro hx
    rw [← hexcess] at hx
    norm_num [cleanExcess] at hx
    obtain ⟨hsmall, ho⟩ := hquiet.clean hsense hload hq (by linarith)
    exact ⟨hg.rate_mul_le (by linarith) (by linarith), ho⟩
  cases hact with
  | cut hx hk =>
    exact Stage.of_cut hB hq hg (hquiet.starts hq1 hhalf) hload hσ h₀ h₁ hsense htrack hge hle
      (hx.imp_right And.right) hk
  | slow hs | steady hs => cases h.startup.symm.trans hs
  | flat _ hx hd =>
    exact absurd (h.not_flat (by linarith) hσ (hclean hx).1) (not_lt.mpr hd)
  | double _ hx =>
    obtain ⟨hle', ho⟩ := hclean hx
    obtain ⟨hpos', hload'⟩ := hg.grows (x := growthStartup) (M := c.max)
      (by norm_num [growthStartup]) (by norm_num [growthStartup]; linarith)
    exact ⟨.overshot h.startup (.of_sampled hpos' hload' rfl htrack h.cooldown) ho
      (Nat.succ_le_succ (h.few hm hle')), rfl⟩
  | hold _ hx hx' hraw' =>
    rw [← hexcess] at hx hx'
    norm_num [cleanExcess, cutExcess, startupAbortExcess] at hx hx' hraw'
    have hcreeps : Gauge.Creeps q 1 ⟨g.load, c.lossAfter q σ, c.floorAfter q σ, 0⟩ := by
      refine hquiet.creeps hsense hload (by linarith) (by linarith) ?_
      simp only [RateController.floorAfter]
      linarith [hraw.1]
    have hover' := hcreeps.above.2
    simp only at hover'
    have hle' : 3 / 4 * c.rate ≤ B := hg.rate_mul_le (by linarith) (by linarith)
    refine ⟨.creeping h.startup (.of_sampled hg.pos hg.load rfl htrack h.cooldown) ?_ hcreeps
      (Nat.succ_le_succ (h.few hm hle')), rfl⟩
    rcases hfr' with rfl | ⟨rfl, hfell⟩
    · exact hfr
    · exfalso
      linarith

end Signal

section Signal

variable {m n : Nat} {M : ℚ} {r : ProgressReport} {ds : List (UInt64 × ℚ)}
  (hB : startRateBps ≤ B) (hq : 9 / 10 ≤ q) (hs : c.startup = true) (hg : Reads B q c g fr)
  (hσ : Passes B q c σ) (hge : σ.delivered ≤ M) (hle : M ≤ 1002 / 1000 * (q * B))
  (hact : (c.windowed r σ ds).Acts σ.rawLoss (c.smooth σ.rawLoss) (c.floorOf σ) M σ.delivered c')

include hB hq hs hg hσ hge hle hact

theorem Stage.of_overshot (hq1 : q ≤ 1) (h : g.Overshot q) :
    Stage B q m (n + 1) c' ∧ c'.delivered = ds := by
  obtain ⟨ρ, fr', h₀, h₁, -, hsense, htrack, -⟩ := hg.senses (by linarith) hσ
  have hx' := h.congested h₀ h₁ hsense
  rw [RateController.after_sub] at hx'
  cases hact with
  | cut hx hk =>
    exact Stage.of_cut hB hq hg (h.starts hq1) (by linarith [h.above.1]) hσ h₀ h₁ hsense htrack
      hge hle (hx.imp_right And.right) hk
  | slow hs' | steady hs' => cases hs.symm.trans hs'
  | flat _ hx | double _ hx =>
    norm_num [cleanExcess] at hx
    linarith
  | hold _ _ hx =>
    norm_num [cutExcess] at hx
    linarith

theorem Stage.of_creeping {j : Nat} (hfr : fr ≤ c.rate / 2) (h : g.Creeps q j) (hn : n ≤ m + j) :
    Stage B q m (n + 1) c' ∧ c'.delivered = ds := by
  obtain ⟨ρ, fr', h₀, h₁, hslow, hsense, htrack, hfr'⟩ := hg.senses (by linarith) hσ
  have hpos := hg.pos
  obtain rfl : ρ = 1 / 250 := hslow (by linarith)
  obtain ⟨hunclean, hnext⟩ := h.next hsense
  rw [RateController.after_sub] at hunclean hnext
  cases hact with
  | cut hx hk =>
    exact Stage.of_cut hB hq hg h.starts (by linarith [h.above.1]) hσ h₀ h₁ hsense htrack hge hle
      (hx.imp_right And.right) hk
  | slow hs' | steady hs' => cases hs.symm.trans hs'
  | flat _ hx | double _ hx =>
    norm_num [cleanExcess] at hx
    linarith
  | hold _ _ hx =>
    norm_num [cutExcess] at hx
    have hcool : c.cooldown = 0 := hg.cooldown.trans h.cooldown
    refine ⟨.creeping hs (.of_sampled hg.pos hg.load rfl htrack hcool) ?_
      (hnext (by linarith)) (by omega), rfl⟩
    rcases hfr' with rfl | ⟨rfl, hfell⟩
    · exact hfr
    · exfalso
      linarith

end Signal

/-! ## Runs -/

section Runs

variable {m n : Nat} {r : ProgressReport} {out : Option ℚ}

theorem Stage.of_last (h : Stage B q m n c) (last : Option Snap) :
    Stage B q m n { c with last } := by
  have reads : ∀ {g fr}, Reads B q c g fr → Reads B q { c with last } g fr :=
    fun hg => ⟨hg.pos, hg.load, hg.loss, hg.floor, hg.cooldown⟩
  cases h with
  | doubling h =>
    refine .doubling ⟨h.startup, h.rate, h.le, h.best, h.cooldown, h.reads.imp_right ?_⟩
    rintro ⟨g, fr, hg, hquiet, hfr⟩
    exact ⟨g, fr, reads hg, hquiet, hfr⟩
  | overshot hs hg h hn => exact .overshot hs (reads hg) h hn
  | creeping hs hg hfr h hn => exact .creeping hs (reads hg) hfr h hn
  | found hs hg h => exact .found hs (reads hg) h

theorem Stage.signal (hB : startRateBps ≤ B) (hq : 9 / 10 ≤ q) (hq1 : q ≤ 1)
    (hm : B ≤ 2 ^ m * startRateBps) (hcap : 3 * B ≤ c.max) (h : Stage B q m n c)
    (hw : Capped B q c) (hr : c.report r = .ok (out, c')) (hsig : c.signal r = some σ)
    (hσ : Passes B q c σ) : Stage B q m (n + 1) c' ∧ Capped B q c' := by
  have hB₀ : 0 < B := lt_of_lt_of_le (by norm_num [startRateBps]) hB
  -- While startup lasts there is no cooldown, so the report is decided on.
  have decided : 0 < c.rate → c.cooldown = 0 → (∀ M ds, σ.delivered ≤ M →
      M ≤ 1002 / 1000 * (q * B) → (c.windowed r σ ds).Acts σ.rawLoss (c.smooth σ.rawLoss)
        (c.floorOf σ) M σ.delivered c' → Stage B q m (n + 1) c' ∧ c'.delivered = ds) →
      Stage B q m (n + 1) c' ∧ Capped B q c' := by
    intro hpos hcool hact
    obtain ⟨ds, hds, ⟨hc, -⟩ | ⟨-, hacts⟩⟩ :=
      RateController.report_saturated hr hsig hpos hσ.saturated
    · rw [hcool] at hc
      cases hc
    · obtain ⟨hall, hge, hle⟩ := hw.window hσ (by linarith) hB₀.le hds
      obtain ⟨hstage, hwin⟩ := hact _ ds hge hle hacts
      exact ⟨hstage, by rwa [Capped, hwin]⟩
  cases h with
  | doubling h =>
    refine decided h.pos h.cooldown fun M ds hge hle hact => ?_
    rcases h.reads with ⟨hn, hloss, hfloor⟩ | ⟨g, fr, hg, hquiet, hfr⟩
    · have hunder : c.rate ≤ B := by
        rw [h.rate, hn]
        linarith
      exact h.first (by linarith) hunder hloss hfloor hcap hσ hact
    · rcases le_total c.rate B with hunder | hover
      · exact h.under hq hg hquiet hfr hcap hσ hact hunder
      · exact h.above hB hq hq1 hm hg hquiet hfr hcap hσ hact hge hle hover
  | overshot hs hg h hn =>
    refine decided hg.pos (hg.cooldown.trans h.cooldown) fun M ds hge hle hact => ?_
    exact Stage.of_overshot hB hq hs hg hσ hge hle hact hq1 h
  | creeping hs hg hfr h hn =>
    refine decided hg.pos (hg.cooldown.trans h.cooldown) fun M ds hge hle hact => ?_
    exact Stage.of_creeping hB hq hs hg hσ hge hle hact hfr h hn
  | found hs hg h =>
    obtain ⟨g', fr', hg', htick, hs', hw'⟩ := hg.tick hB hq hq1 hcap hs h hw hr hsig hσ
    exact ⟨.found hs' hg' (htick.near hq hq1 h), hw'⟩

end Runs

end Path

/-- The call had a signal. -/
def Call.signals (l : Call) : Bool := (l.before.signal l.report).isSome

theorem doubles_new {B q : ℚ} (seg : Nat) {maxRateMbps : ℚ} (hB : startRateBps ≤ B) (hq : 0 ≤ q)
    (hcap : 3 * B ≤ maxRateMbps * 1000000 / 8) : Doubles B q 0 (.new seg maxRateMbps) := by
  have hS : 0 < startRateBps := by norm_num [startRateBps]
  have hrate : (RateController.new seg maxRateMbps).rate = startRateBps :=
    min_eq_left (le_max_of_le_left (by linarith))
  refine ⟨rfl, by rw [hrate, pow_zero, one_mul], by rw [hrate]; linarith, ?_, rfl,
    .inl ⟨rfl, rfl, rfl⟩⟩
  rw [hrate]
  show (0 : ℚ) ≤ _
  positivity

/-- Through any reports the path can make. -/
theorem stage_of_trace {B q : ℚ} {m seg : Nat} {maxRateMbps : ℚ} (hB : startRateBps ≤ B)
    (hq : 9 / 10 ≤ q) (hq1 : q ≤ 1) (hm : B ≤ 2 ^ m * startRateBps)
    (hcap : 3 * B ≤ maxRateMbps * 1000000 / 8) {calls : List Call} {c : RateController}
    (h : Runs.Trace Called (.new seg maxRateMbps) calls c)
    (hpath : ∀ l ∈ calls, ∀ σ, l.before.signal l.report = some σ → Passes B q l.before σ) :
    Stage B q m (calls.countP Call.signals) c := by
  have key := h.history (fun ls c => (∀ l ∈ ls, ∀ σ, l.before.signal l.report = some σ →
      Passes B q l.before σ) → Stage B q m (ls.countP Call.signals) c ∧ Capped B q c ∧
        3 * B ≤ c.max)
    (fun _ => ⟨.doubling (doubles_new seg hB (by linarith) hcap), fun s hs => (by cases hs),
      le_max_of_le_left hcap⟩) ?_
  · exact (key hpath).1
  · intro ls c l c' ih hst hpass
    obtain ⟨hstage, hw, hmax⟩ := ih fun l' hl' => hpass l' (List.mem_append_left _ hl')
    obtain ⟨hc, -, hr⟩ := id hst
    have hmax' : 3 * B ≤ c'.max := by rw [hst.reported.max]; exact hmax
    rw [List.countP_append, List.countP_singleton, Call.signals, hc]
    cases hsig : c.signal l.report with
    | none =>
      have hstage' : Stage B q m (ls.countP Call.signals) c' ∧ Capped B q c' := by
        rcases RateController.report_quiet hr hsig with rfl | rfl
        · exact ⟨hstage, hw⟩
        · exact ⟨hstage.of_last _, hw⟩
      exact ⟨hstage'.1, hstage'.2, hmax'⟩
    | some σ =>
      have hσ := hpass l (List.mem_append_right _ (List.mem_singleton_self l)) σ (by rw [hc, hsig])
      rw [hc] at hσ
      obtain ⟨hstage', hw'⟩ := hstage.signal hB hq hq1 hm hmax hw hr hsig hσ
      exact ⟨hstage', hw', hmax'⟩

/-- The rate is never far over the capacity, and startup lasts for at most eight signals
more than it takes to reach it. -/
theorem Stage.bounds {B q : ℚ} {m n : Nat} {c : RateController} (h : Stage B q m n c)
    (hB : startRateBps ≤ B) (hq : 9 / 10 ≤ q) (hq1 : q ≤ 1) (hm : B ≤ 2 ^ m * startRateBps) :
    c.rate ≤ 11 / 5 * B ∧ (c.startup = true → n ≤ m + 7) := by
  have hS : 0 < startRateBps := by norm_num [startRateBps]
  have hB₀ : 0 < B := hS.trans_le hB
  cases h with
  | doubling h =>
    refine ⟨by linarith [h.le], fun _ => ?_⟩
    by_contra hlt
    have hpow : (2 : ℚ) ^ (m + 2) ≤ 2 ^ n := pow_le_pow_right₀ (by norm_num) (by omega)
    have hmul := mul_le_mul_of_nonneg_right hpow hS.le
    have hle := h.le
    rw [h.rate] at hle
    rw [pow_add] at hmul
    linarith
  | overshot _ hg h hn =>
    refine ⟨?_, fun _ => by omega⟩
    by_contra hlt
    rw [not_le] at hlt
    have h₁ : c.rate * ((q - 74 / 1000) / 2) ≤ q * B := by
      rw [← hg.load]
      exact mul_le_mul_of_nonneg_left (by linarith [h.above.2]) hg.pos.le
    have h₂ : 11 / 5 * B * ((q - 74 / 1000) / 2) < c.rate * ((q - 74 / 1000) / 2) :=
      mul_lt_mul_of_pos_right hlt (by linarith)
    have h₃ := mul_le_mul_of_nonneg_right hq hB₀.le
    linarith
  | creeping _ hg _ h hn =>
    have hx := h.above.2
    have hle := hg.rate_mul_le (x := 3 / 4) (by linarith) (by linarith)
    exact ⟨by linarith, fun _ => by have := h.few; omega⟩
  | found hs hg h =>
    refine ⟨by linarith [(hg.rate_near h hq hq1 hB₀).2], fun hs' => ?_⟩
    cases hs.symm.trans hs'

/-- **The controller finds the bottleneck.** On a path without a queue that has the
capacity `B`, at least the starting rate, and loses up to a tenth of what is under it, from
a new controller with a cap well above, through any reports that measure the path to
within a thousandth with the sender not the limit: the rate never goes above 2.2 times the
capacity; once startup is over it stays between 0.89 and 1.3 times the capacity, and the
loss floor within nine hundredths of the path's own loss, for as long as the run goes on;
and startup is over after eight signals more than the doublings it takes to reach the
capacity. -/
theorem bottleneck_found (seg : Nat) {B q maxRateMbps : ℚ} (hB : startRateBps ≤ B)
    (hq : 9 / 10 ≤ q) (hq1 : q ≤ 1) (hcap : 3 * B ≤ maxRateMbps * 1000000 / 8)
    {calls : List Call} {c : RateController}
    (h : Runs.Trace Called (.new seg maxRateMbps) calls c)
    (hpath : ∀ l ∈ calls, ∀ σ, l.before.signal l.report = some σ → Passes B q l.before σ) :
    c.rate ≤ 11 / 5 * B ∧
    (c.startup = false → 89 / 100 * B ≤ c.rate ∧ c.rate ≤ 13 / 10 * B ∧
      ∃ f fr, c.lossFloor = some (f, fr) ∧ |f - (1 - q)| ≤ 9 / 100) ∧
    ∀ m, B ≤ 2 ^ m * startRateBps → m + 8 ≤ calls.countP Call.signals → c.startup = false := by
  have hS : 0 < startRateBps := by norm_num [startRateBps]
  have hB₀ : 0 < B := hS.trans_le hB
  obtain ⟨m, hm⟩ := pow_unbounded_of_one_lt (B / startRateBps) (one_lt_two (α := ℚ))
  rw [div_lt_iff₀ hS] at hm
  have hstage := stage_of_trace hB hq hq1 hm.le hcap h hpath
  refine ⟨(hstage.bounds hB hq hq1 hm.le).1, fun hs => ?_, fun m' hm' hcount => ?_⟩
  · cases hstage with
    | doubling h => cases hs.symm.trans h.startup
    | overshot hs' | creeping hs' => cases hs.symm.trans hs'
    | found _ hg h =>
      obtain ⟨hlow, hhigh⟩ := hg.rate_near h hq hq1 hB₀
      obtain ⟨-, -, hf, hf'⟩ := h.bounds hq1
      refine ⟨hlow, hhigh, _, _, hg.floor, ?_⟩
      rw [add_sub_cancel_left, abs_le]
      exact ⟨by linarith, hf'⟩
  · have hstage' := stage_of_trace hB hq hq1 hm' hcap h hpath
    by_contra hs
    have := (hstage'.bounds hB hq hq1 hm').2 (by simpa using hs)
    omega

/-- The controller on a path that has just the starting rate, after a first report. -/
def pathStarted : RateController :=
  { RateController.new 1250 5000 with last := some ⟨0, 0, 0, 0⟩ }

/-- The same 100 ms later: everything came through, and the rate was doubled. -/
def pathDoubled : RateController :=
  { pathStarted with
    rate := 25000000
    bestDelivered := 12500000
    lossEwma := some 0
    lossFloor := some (0, 12500000)
    delivered := [(100, 12500000)]
    last := some ⟨1000, 1000, 1250000, 100⟩ }

/-- Half of the doubled rate was lost: the cut is to the capacity. -/
def pathFound : RateController :=
  { pathDoubled with
    rate := 12500000
    startup := false
    cooldown := 3
    lossEwma := some (3 / 20)
    lossFloor := some (1 / 5000, 12500000)
    delivered := [(100, 12500000), (200, 12500000)]
    last := some ⟨2000, 3000, 3750000, 200⟩ }

/-- The three calls. -/
def pathCalls : List Call :=
  [⟨.new 1250 5000, ⟨0, some 0, 0, 0⟩, none, pathStarted⟩,
    ⟨pathStarted, ⟨1000, some 1000, 1250000, 100⟩, some 25000000, pathDoubled⟩,
    ⟨pathDoubled, ⟨2000, some 3000, 3750000, 200⟩, some 12500000, pathFound⟩]

theorem pathCalls_trace : Runs.Trace Called (.new 1250 5000) pathCalls pathFound :=
  .cons ⟨rfl, rfl, rfl⟩ (.cons ⟨rfl, rfl, by decide +kernel⟩
    (.cons ⟨rfl, rfl, by decide +kernel⟩ .nil))

theorem pathCalls_passes : ∀ l ∈ pathCalls, ∀ σ, l.before.signal l.report = some σ →
    Passes 12500000 1 l.before σ := by
  intro l hl σ hσ
  simp only [pathCalls, List.mem_cons, List.not_mem_nil, or_false] at hl
  obtain ⟨last, hlast, -, -, -, rfl⟩ := RateController.signal_eq_some hσ
  rcases hl with rfl | rfl | rfl
  · cases hlast
  · cases hlast
    refine ⟨?_, by decide +kernel, by decide +kernel⟩
    unfold RateController.Saturated
    decide +kernel
  · cases hlast
    refine ⟨?_, by decide +kernel, by decide +kernel⟩
    unfold RateController.Saturated
    decide +kernel

theorem bottleneck_found_start : pathFound.startup = false ∧
    89 / 100 * 12500000 ≤ pathFound.rate ∧ pathFound.rate ≤ 13 / 10 * 12500000 := by
  obtain ⟨-, hfound, -⟩ := bottleneck_found 1250 (B := 12500000) (q := 1)
    (by norm_num [startRateBps]) (by norm_num) le_rfl (by norm_num) pathCalls_trace
    pathCalls_passes
  obtain ⟨hlow, hhigh, -⟩ := hfound rfl
  exact ⟨rfl, hlow, hhigh⟩

end AtpExperiment
