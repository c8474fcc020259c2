/-
What one report does to the controller (`onReport_reported`): the cap never
changes, the rate stays between `MIN_RATE_BPS` and the cap, and the returned
value is the new rate exactly when the rate changed.
-/
import AtpExperiment.Rate

namespace AtpExperiment

open Rate

theorem clamp_eq_ok {x lo hi r : ℚ} :
    clamp x lo hi = .ok r ↔ lo ≤ hi ∧ r = max lo (min x hi) := by
  unfold clamp
  split
  · next h => simp [h, eq_comm]
  · next h => simp [h]

theorem clamp_ok {x lo hi : ℚ} (h : lo ≤ hi) : clamp x lo hi = .ok (max lo (min x hi)) := if_pos h

theorem clamp_mem {x lo hi r : ℚ} (h : clamp x lo hi = .ok r) : lo ≤ r ∧ r ≤ hi := by
  obtain ⟨hle, rfl⟩ := clamp_eq_ok.mp h
  exact ⟨le_max_left _ _, max_le hle (min_le_right _ _)⟩

theorem minRateBps_pos : 0 < minRateBps := by norm_num [minRateBps]

namespace RateController

/-- The rate is between `MIN_RATE_BPS` and the cap. -/
structure Bounded (c : RateController) : Prop where
  low : minRateBps ≤ c.rate
  high : c.rate ≤ c.max

theorem bounded_new (seg : Nat) (maxRateMbps : ℚ) : (new seg maxRateMbps).Bounded where
  low := le_min (by norm_num [minRateBps, startRateBps]) (le_max_right _ _)
  high := min_le_right _ _

/-- The starting rate is the pacer's exactly when the cap is not below it. -/
theorem rate_new_eq_start_iff (seg : Nat) (maxRateMbps : ℚ) :
    (new seg maxRateMbps).rate = startRateBps ↔ 100 ≤ maxRateMbps := by
  have hmin : minRateBps < startRateBps := by norm_num [minRateBps, startRateBps]
  simp only [new, min_eq_left_iff, le_max_iff, not_le.mpr hmin, or_false]
  constructor
  · intro h
    simp only [startRateBps] at h
    linarith
  · intro h
    simp only [startRateBps]
    linarith

theorem Bounded.grown {c : RateController} (hc : c.Bounded) {g : ℚ} (hg : 1 ≤ g) :
    minRateBps ≤ min (c.rate * g) c.max := by
  have hpos : 0 ≤ c.rate := le_trans minRateBps_pos.le hc.low
  exact le_min (le_trans hc.low (le_mul_of_one_le_right hpos hg)) (le_trans hc.low hc.high)

theorem cut_spec {c c' : RateController} {m : ℚ} (h : c.cut m = .ok c') :
    c'.max = c.max ∧ (c.Bounded → c'.Bounded) := by
  simp only [cut, Checked.bind_eq_ok, Checked.pure_eq_ok] at h
  obtain ⟨r, hr, rfl⟩ := h
  refine ⟨rfl, fun hc => ⟨(clamp_mem hr).1, le_trans (clamp_mem hr).2 ?_⟩⟩
  have hpos : 0 ≤ c.rate := le_trans minRateBps_pos.le hc.low
  have hle : c.rate * cutMinFactor ≤ c.rate :=
    mul_le_of_le_one_right hpos (by norm_num [cutMinFactor])
  exact max_le (le_trans hle hc.high) (le_trans hc.low hc.high)

theorem grow_spec {c c' : RateController} {f m d : ℚ} (h : c.grow f m d = .ok c') :
    c'.max = c.max ∧ (c.Bounded → c'.Bounded) := by
  simp only [grow] at h
  split at h
  · obtain rfl := Checked.pure_eq_ok.mp h
    exact ⟨rfl, fun hc => ⟨hc.grown (by norm_num [growthSlow]), min_le_right _ _⟩⟩
  split at h
  · split at h
    · obtain rfl := Checked.pure_eq_ok.mp h
      exact ⟨rfl, fun hc => ⟨hc.grown (by norm_num [growthStartup]), min_le_right _ _⟩⟩
    split at h
    · -- The delivery plateau: never above the rate the startup ended with.
      simp only [Checked.bind_eq_ok, Checked.pure_eq_ok] at h
      obtain ⟨r, hr, rfl⟩ := h
      refine ⟨rfl, fun hc => ⟨(clamp_mem hr).1, le_trans (clamp_mem hr).2 ?_⟩⟩
      exact max_le hc.high (le_trans hc.low hc.high)
    · obtain rfl := Checked.pure_eq_ok.mp h
      exact ⟨rfl, fun hc => ⟨hc.low, hc.high⟩⟩
  · obtain rfl := Checked.pure_eq_ok.mp h
    exact ⟨rfl, fun hc => ⟨hc.grown (by norm_num [growthSteady]), min_le_right _ _⟩⟩

theorem decideRate_spec {c c' : RateController} {raw loss f m d sent : ℚ}
    (h : c.decideRate raw loss f m d sent = .ok c') :
    c'.max = c.max ∧ (c.Bounded → c'.Bounded) := by
  simp only [decideRate] at h
  split at h
  · exact cut_spec h
  split at h
  · exact grow_spec h
  split at h
  · obtain rfl := Checked.pure_eq_ok.mp h
    exact ⟨rfl, fun hc => ⟨hc.grown (by norm_num [growthSlow]), min_le_right _ _⟩⟩
  · obtain rfl := Checked.pure_eq_ok.mp h
    exact ⟨rfl, id⟩

/-- What a report did: the cap is unchanged, the bounds are kept, and the
returned value is the new rate when it changed. -/
structure Reported (c : RateController) (r : Option ℚ) (c' : RateController) : Prop where
  max : c'.max = c.max
  bounded : c.Bounded → c'.Bounded
  rate : r = if c'.rate ≠ c.rate then some c'.rate else none

theorem reported_none {c c' : RateController} (hm : c'.max = c.max) (hr : c'.rate = c.rate) :
    Reported c none c' :=
  ⟨hm, fun hc => ⟨by rw [hr]; exact hc.low, by rw [hr, hm]; exact hc.high⟩, by simp [hr]⟩

theorem onSignal_reported {c c' : RateController} {t : UInt64} {raw d sent : ℚ} {r : Option ℚ}
    (h : c.onSignal t raw d sent = .ok (r, c')) : Reported c r c' := by
  simp only [onSignal] at h
  split at h
  · obtain ⟨rfl, rfl⟩ := Prod.mk.inj (Checked.pure_eq_ok.mp h)
    exact reported_none rfl rfl
  simp only [Checked.bind_eq_ok] at h
  obtain ⟨ds, -, h⟩ := h
  split at h
  · obtain ⟨rfl, rfl⟩ := Prod.mk.inj (Checked.pure_eq_ok.mp h)
    exact reported_none rfl rfl
  simp only [Checked.bind_eq_ok, Checked.pure_eq_ok, Prod.mk.injEq] at h
  obtain ⟨c'', hd, rfl, rfl⟩ := h
  obtain ⟨hm, hb⟩ := decideRate_spec hd
  exact ⟨hm, fun hc => hb ⟨hc.low, hc.high⟩, rfl⟩

theorem onReport_reported {c c' : RateController} {pkts : UInt64} {span : Option UInt64}
    {bytes t : UInt64} {r : Option ℚ} (h : c.onReport pkts span bytes t = .ok (r, c')) :
    Reported c r c' := by
  simp only [onReport] at h
  split at h
  · cases h
  split at h
  · obtain ⟨rfl, rfl⟩ := Prod.mk.inj (Checked.pure_eq_ok.mp h)
    exact reported_none rfl rfl
  split at h
  · obtain ⟨rfl, rfl⟩ := Prod.mk.inj (Checked.pure_eq_ok.mp h)
    exact reported_none rfl rfl
  split at h
  · obtain ⟨rfl, rfl⟩ := Prod.mk.inj (Checked.pure_eq_ok.mp h)
    exact reported_none rfl rfl
  simp only [Checked.bind_eq_ok] at h
  obtain ⟨raw, -, h⟩ := h
  have hr := onSignal_reported h
  exact ⟨hr.max, fun hc => hr.bounded ⟨hc.low, hc.high⟩, hr.rate⟩

end RateController

end AtpExperiment
