/-
The simulation of the controller's tests (`rate.rs`, `simulate`): a path without a queue
that passes `min(rate, bottleneck)` and loses the share `p` of it, in whole datagrams.

Its tests run it at 500 Mbit/s with three shares. Here the counters of a tick are shown to
measure the path (`passes_of_counts`) as long as the rate keeps above a thousand datagrams
a tick, which it does because they measure it; so what holds of every path
(`Stage.signal`) holds of the simulation, at any bottleneck, share and number of ticks
(`simulate_converges`).
-/
import AtpExperiment.Startup

namespace AtpExperiment

open Rate

theorem RateController.Takes.last_of_signal {c c' : RateController} {r : ProgressReport} {e : Exit}
    {σ : Signal} (h : Takes c r e c') (hsig : c.signal r = some σ) :
    c'.last = some (c.snap r) := by
  cases h with
  | quiet hnone => cases hnone.symm.trans hsig
  | appLimited | cooling => rfl
  | decided _ _ _ _ hd => exact hd.sameSamples.last

namespace Simulation

/-- `SEG`. -/
def seg : Nat := 1224

/-- `TICK_MS`. -/
def tickMs : Nat := 100

/-- `x as u64`. -/
def asU64 (x : ℚ) : UInt64 := UInt64.ofNat (min ⌊x⌋.toNat (2 ^ 64 - 1))

/-- The locals of `simulate`. -/
structure Locals where
  c : RateController
  pkts : UInt64
  span : UInt64
  bytes : UInt64

/-- The body of the loop of `simulate`. -/
def tick (bneck p : ℚ) (s : Locals) (i : Nat) : Checked Locals := do
  let dt : ℚ := tickMs / 1000
  let sent := s.c.rate * dt
  let sprayed := asU64 (sent / seg)
  let span ← Checked.addU64 s.span sprayed
  let size ← Checked.mul 64 sprayed.toNat seg
  let bytes ← Checked.addU64 s.bytes (UInt64.ofNat size)
  let through := min sent (bneck * dt)
  let delivered := Checked.minU64 (asU64 (through * (1 - p) / seg)) sprayed
  let pkts ← Checked.addU64 s.pkts delivered
  let t ← Checked.mul 64 tickMs (i + 1)
  let (_, c) ← s.c.onReport pkts (some span) bytes (UInt64.ofNat t)
  return ⟨c, pkts, span, bytes⟩

/-- `simulate`. -/
def simulate (bottleneckMbps p capMbps : ℚ) (ticks : Nat) : Checked ℚ := do
  let s ← (List.range ticks).foldlM (tick (bottleneckMbps * 1000000 / 8) p)
    ⟨.new seg capMbps, 0, 0, 0⟩
  return s.c.rate * 8 / 1000000

/-! ## Counters -/

theorem asU64_spec {x : ℚ} (h₀ : 0 ≤ x) (h : x < 2 ^ 64) :
    ((asU64 x).toNat : ℚ) ≤ x ∧ x < (asU64 x).toNat + 1 := by
  have hfloor : (0 : Int) ≤ ⌊x⌋ := Int.floor_nonneg.mpr h₀
  have hlt : ⌊x⌋ < 2 ^ 64 := Int.floor_lt.mpr (by exact_mod_cast h)
  have hnat : (asU64 x).toNat = ⌊x⌋.toNat := by
    rw [asU64, UInt64.toNat_ofNat_of_lt' (by simp only [UInt64.size]; omega)]
    omega
  have hcast : ((⌊x⌋.toNat : Nat) : ℚ) = (⌊x⌋ : ℚ) := by
    exact_mod_cast congrArg (Int.cast (R := ℚ)) (Int.toNat_of_nonneg hfloor)
  rw [hnat, hcast]
  exact ⟨Int.floor_le x, Int.lt_floor_add_one x⟩

/-- A thousand datagrams a tick or more measure the path to within a thousandth. -/
theorem passes_of_counts {B q : ℚ} {c : RateController} {σ : Signal} {n d : Nat}
    (hB : 12252240 ≤ B) (hq : 9 / 10 ≤ q) (hq1 : q ≤ 1) (hrate : 12252240 ≤ c.rate)
    (hn : (n : ℚ) ≤ c.rate / 12240) (hn' : c.rate / 12240 < n + 1)
    (hd : (d : ℚ) ≤ q * min c.rate B / 12240) (hd' : q * min c.rate B / 12240 < d + 1)
    (hraw : σ.rawLoss = max 0 (min (1 - (d : ℚ) / n) 1))
    (hdelivered : σ.delivered = (d : ℚ) * 12240) (hsent : σ.sentRate = (n : ℚ) * 12240) :
    Passes B q c σ := by
  have hpos : 0 < c.rate := by linarith
  have hn₀ : (1000 : ℚ) ≤ n := by linarith
  obtain ⟨v, hv⟩ : ∃ v, v = q * min 1 (B / c.rate) := ⟨_, rfl⟩
  have hv₀ : 0 ≤ v := by
    rw [hv]
    exact mul_nonneg (by linarith) (le_min zero_le_one (div_nonneg (by linarith) hpos.le))
  have hv₁ : v ≤ 1 := by
    rw [hv]
    exact mul_le_one₀ hq1 (le_min zero_le_one (div_nonneg (by linarith) hpos.le)) (min_le_left _ _)
  -- What comes through is the share `v` of what is sent.
  have hthrough : q * min c.rate B / 12240 = v * (c.rate / 12240) := by
    have hmin : min c.rate B = min 1 (B / c.rate) * c.rate := by
      rw [min_mul_of_nonneg _ _ hpos.le, one_mul, div_mul_cancel₀ _ hpos.ne']
    rw [hmin, hv]
    ring
  have hlow : v * n ≤ v * (c.rate / 12240) := mul_le_mul_of_nonneg_left hn hv₀
  have hhigh : v * (c.rate / 12240) ≤ v * (n + 1) := mul_le_mul_of_nonneg_left hn'.le hv₀
  have hmin : 12252240 ≤ min c.rate B := le_min hrate hB
  have hq' := mul_le_mul hq hmin (by norm_num) (by linarith : (0 : ℚ) ≤ q)
  refine ⟨?_, ?_, ?_⟩
  · simp only [RateController.Saturated, growEvidenceFrac, hsent]
    linarith
  · have hdn : (d : ℚ) ≤ n := by
      have hle : (d : ℚ) < n + 1 := by
        have := mul_le_of_le_one_left (by linarith : (0 : ℚ) ≤ c.rate / 12240) hv₁
        linarith
      exact_mod_cast Nat.lt_succ_iff.mp (by exact_mod_cast hle)
    have hn₁ : (0 : ℚ) < n := by linarith
    have hdiv₁ : (d : ℚ) / n ≤ 1 := (div_le_one hn₁).mpr hdn
    have hdiv₀ : (0 : ℚ) ≤ (d : ℚ) / n := by positivity
    rw [hraw, min_eq_left (by linarith), max_eq_right (by linarith), ← hv, abs_le]
    have h₁ : (d : ℚ) / n ≤ v + 1 / 1000 := by
      rw [div_le_iff₀ hn₁]
      linarith
    have h₂ : v - 1 / 1000 ≤ (d : ℚ) / n := by
      rw [le_div_iff₀ hn₁]
      linarith
    exact ⟨by linarith, by linarith⟩
  · rw [hdelivered, abs_le]
    exact ⟨by linarith, by linarith⟩

/-! ## Ticks -/

/-- The datagrams sent in a tick, -/
def sprayed (c : RateController) : UInt64 := asU64 (c.rate * (tickMs / 1000) / seg)

/-- and those that come through. -/
def delivered (bneck p : ℚ) (c : RateController) : UInt64 :=
  Checked.minU64 (asU64 (min (c.rate * (tickMs / 1000)) (bneck * (tickMs / 1000)) * (1 - p) / seg))
    (sprayed c)

/-- The report of a tick. -/
def reportOf (bneck p : ℚ) (s : Locals) (i : Nat) : ProgressReport where
  pkts := s.pkts + delivered bneck p s.c
  span := some (s.span + sprayed s.c)
  bytesSent := s.bytes + UInt64.ofNat ((sprayed s.c).toNat * seg)
  tMs := UInt64.ofNat (tickMs * (i + 1))

/-- The locals with a tick counted, and a controller after its report. -/
def counted (bneck p : ℚ) (s : Locals) (c : RateController) : Locals where
  c := c
  pkts := s.pkts + delivered bneck p s.c
  span := s.span + sprayed s.c
  bytes := s.bytes + UInt64.ofNat ((sprayed s.c).toNat * seg)

/-- After `i` ticks. The last report was that of the last tick, so the number of signals
is one less. -/
structure Ticked (B q : ℚ) (m i : Nat) (s : Locals) : Prop where
  stage : Stage B q m (i - 1) s.c
  capped : Capped B q s.c
  max : 3 * B ≤ s.c.max
  seg : s.c.seg = seg
  last : s.c.last =
    if i = 0 then none else some ⟨s.pkts, s.span, s.bytes, UInt64.ofNat (tickMs * i)⟩
  bytes : s.bytes.toNat = s.span.toNat * 1224
  pkts : s.pkts.toNat ≤ s.span.toNat
  sent : (s.bytes.toNat : ℚ) ≤ i * (11 / 50 * B)
  times : ∀ x ∈ s.c.delivered, x.1.toNat ≤ tickMs * i

/-- The path of a simulation, and the number of its ticks: no counter of it overflows. -/
structure Setup (B p : ℚ) (m ticks : Nat) : Prop where
  bneck : 14000000 ≤ B
  share : 0 ≤ p
  loss : p ≤ 1 / 10
  doublings : B ≤ 2 ^ m * startRateBps
  fits : ticks * (11 / 50 * B) < 2 ^ 63

section Tick

variable {B p : ℚ} {m i ticks : Nat} {s : Locals}

theorem Setup.start (hset : Setup B p m ticks) : startRateBps ≤ B := by
  have := hset.bneck
  norm_num [startRateBps]
  linarith

/-- The rate never falls under 1001 datagrams a tick. -/
theorem Setup.rate (hset : Setup B p m ticks) {n : Nat} {c : RateController}
    (h : Stage B (1 - p) m n c) : 12252240 ≤ c.rate ∧ c.rate ≤ 11 / 5 * B := by
  obtain ⟨hB, hp₀, hp, hm, -⟩ := id hset
  refine ⟨?_, (h.bounds hset.start (by linarith) (by linarith) hm).1⟩
  cases h with
  | doubling h =>
    rw [h.rate]
    have hpow : (1 : ℚ) ≤ 2 ^ n := one_le_pow₀ (by norm_num)
    norm_num [startRateBps]
    linarith
  | overshot _ hg h => linarith [hg.above (by linarith) (by linarith [h.above.1])]
  | creeping _ hg _ h => linarith [hg.above (by linarith) (by linarith [h.above.1])]
  | found _ hg h => linarith [(hg.rate_near h (by linarith) (by linarith) (by linarith)).1]

/-- The datagrams of a tick, to within one. -/
theorem Setup.counts (hset : Setup B p m ticks) (hi : i < ticks) {c : RateController}
    (hlow : 12252240 ≤ c.rate) (hhigh : c.rate ≤ 11 / 5 * B) :
    ((sprayed c).toNat : ℚ) ≤ c.rate / 12240 ∧ c.rate / 12240 < (sprayed c).toNat + 1 ∧
    ((delivered B p c).toNat : ℚ) ≤ (1 - p) * min c.rate B / 12240 ∧
    (1 - p) * min c.rate B / 12240 < (delivered B p c).toNat + 1 ∧
    (delivered B p c).toNat ≤ (sprayed c).toNat := by
  obtain ⟨hB, hp₀, hp, -, hfit⟩ := id hset
  have hone : (1 : ℚ) ≤ ticks := by exact_mod_cast Nat.one_le_of_lt hi
  have hfit' : 11 / 50 * B < 2 ^ 63 :=
    lt_of_le_of_lt (le_mul_of_one_le_left (by linarith) hone) hfit
  have hmin : min (c.rate * (tickMs / 1000)) (B * (tickMs / 1000)) * (1 - p) / seg =
      (1 - p) * min c.rate B / 12240 := by
    rw [← min_mul_of_nonneg _ _ (by norm_num [tickMs])]
    norm_num [tickMs, seg]
    ring
  have hsent : c.rate * (tickMs / 1000) / seg = c.rate / 12240 := by
    norm_num [tickMs, seg]
    ring
  have hle : (1 - p) * min c.rate B / 12240 ≤ c.rate / 12240 := by
    have := mul_le_of_le_one_left (le_min (by linarith) (by linarith) : 0 ≤ min c.rate B)
      (by linarith : 1 - p ≤ 1)
    linarith [min_le_left c.rate B]
  have hnonneg : 0 ≤ (1 - p) * min c.rate B / 12240 :=
    div_nonneg (mul_nonneg (by linarith) (le_min (by linarith) (by linarith))) (by norm_num)
  obtain ⟨hn, hn'⟩ := asU64_spec (x := c.rate / 12240) (by linarith) (by linarith)
  obtain ⟨hd, hd'⟩ := asU64_spec hnonneg (by linarith)
  -- The datagrams that come through were sent.
  have hdn : (asU64 ((1 - p) * min c.rate B / 12240)).toNat ≤ (asU64 (c.rate / 12240)).toNat := by
    refine Nat.lt_succ_iff.mp ?_
    exact_mod_cast (by linarith : ((asU64 ((1 - p) * min c.rate B / 12240)).toNat : ℚ) <
      (asU64 (c.rate / 12240)).toNat + 1)
  simp only [sprayed, delivered, Checked.toNat_minU64, hmin, hsent, Nat.min_eq_left hdn]
  exact ⟨hn, hn', hd, hd', hdn⟩

/-- No counter overflows in a tick. -/
structure Counts (B p : ℚ) (s : Locals) (i : Nat) : Prop where
  pkts : s.pkts.toNat + (delivered B p s.c).toNat < 2 ^ 64
  span : s.span.toNat + (sprayed s.c).toNat < 2 ^ 64
  bytes : s.bytes.toNat + (sprayed s.c).toNat * 1224 < 2 ^ 64
  tMs : tickMs * (i + 1) + 2500 < 2 ^ 64

namespace Counts

variable (h : Counts B p s i)

include h

theorem pkts_eq : (reportOf B p s i).pkts.toNat = s.pkts.toNat + (delivered B p s.c).toNat := by
  rw [reportOf, UInt64.toNat_add, Nat.mod_eq_of_lt h.pkts]

theorem span_eq : (s.span + sprayed s.c).toNat = s.span.toNat + (sprayed s.c).toNat := by
  rw [UInt64.toNat_add, Nat.mod_eq_of_lt h.span]

theorem size_eq :
    (UInt64.ofNat ((sprayed s.c).toNat * seg)).toNat = (sprayed s.c).toNat * 1224 := by
  have := h.bytes
  rw [seg, UInt64.toNat_ofNat_of_lt' (by simp only [UInt64.size]; omega)]

theorem bytes_eq :
    (reportOf B p s i).bytesSent.toNat = s.bytes.toNat + (sprayed s.c).toNat * 1224 := by
  rw [reportOf, UInt64.toNat_add, h.size_eq, Nat.mod_eq_of_lt h.bytes]

theorem tMs_eq : (reportOf B p s i).tMs.toNat = tickMs * (i + 1) := by
  have := h.tMs
  exact UInt64.toNat_ofNat_of_lt' (by simp only [UInt64.size]; omega)

theorem tick_eq : tick B p s i =
    s.c.report (reportOf B p s i) >>= fun x => .ok (counted B p s x.2) := by
  have htMs := h.tMs
  have hbytes := h.bytes
  have hsize : s.bytes.toNat + (UInt64.ofNat ((sprayed s.c).toNat * seg)).toNat < 2 ^ 64 := by
    rw [h.size_eq]
    exact hbytes
  have hmul : (sprayed s.c).toNat * seg < 2 ^ 64 := by
    simp only [seg]
    omega
  have ht : tickMs * (i + 1) < 2 ^ 64 := by omega
  have hspan := h.span
  have hpkts := h.pkts
  simp only [delivered, sprayed] at hspan hpkts hsize hmul
  simp only [tick, Checked.addU64_of_lt hspan, Checked.mul_of_lt hmul, Checked.addU64_of_lt hsize,
    Checked.addU64_of_lt hpkts, Checked.mul_of_lt ht, Checked.ok_bind]
  rfl

end Counts

theorem report_ok {c : RateController} (hseg : c.seg ≠ 0) {r : ProgressReport}
    (ht : r.tMs.toNat + 2500 < 2 ^ 64) (hs : ∀ x ∈ c.delivered, x.1.toNat ≤ r.tMs.toNat) :
    ∃ out c', c.report r = .ok (out, c') := by
  rcases RateController.report_ok_or hseg r with hok | ⟨-, σ, -, -, hds⟩
  · exact hok
  exfalso
  rcases RateController.expire_ok_or r.tMs (c.delivered ++ [(r.tMs, σ.delivered)]) with
    ⟨ds, hok⟩ | ⟨-, x, hx, hle⟩
  · rw [hds] at hok
    cases hok
  have hw : deliveredWindowMs.toNat = 2500 := rfl
  rcases List.mem_append.mp hx with hx | hx
  · have := hs x hx
    omega
  · rw [List.mem_singleton.mp hx] at hle
    simp only at hle
    omega

variable (hset : Setup B p m ticks) (hi : i < ticks) (h : Ticked B (1 - p) m i s)

include hset hi h

theorem Ticked.counts : Counts B p s i ∧
    ((sprayed s.c).toNat : ℚ) * 1224 ≤ 11 / 50 * B := by
  obtain ⟨hlow, hhigh⟩ := hset.rate h.stage
  obtain ⟨hn, -, -, -, hdn⟩ := hset.counts hi hlow hhigh
  have hB := hset.bneck
  have hsize : ((sprayed s.c).toNat : ℚ) * 1224 ≤ 11 / 50 * B := by linarith
  have hticks : ((i : ℚ) + 1) * (11 / 50 * B) ≤ ticks * (11 / 50 * B) :=
    mul_le_mul_of_nonneg_right (by exact_mod_cast hi) (by linarith)
  have hbytes : s.bytes.toNat + (sprayed s.c).toNat * 1224 < 2 ^ 63 := by
    have : (s.bytes.toNat : ℚ) + (sprayed s.c).toNat * 1224 < 2 ^ 63 := by
      linarith [h.sent, hset.fits]
    exact_mod_cast this
  have hi' : i + 1 < 2 ^ 42 := by
    have : ((i : ℚ) + 1) * (11 / 50 * 14000000) ≤ (i + 1) * (11 / 50 * B) :=
      mul_le_mul_of_nonneg_left (by linarith) (by positivity)
    have : ((i : ℚ) + 1) < 2 ^ 42 := by linarith [hset.fits]
    exact_mod_cast this
  have hspan := h.bytes
  have hpkts := h.pkts
  refine ⟨⟨?_, ?_, ?_, ?_⟩, hsize⟩
  · omega
  · omega
  · omega
  · simp only [tickMs]
    omega

theorem Ticked.interval (h₀ : 0 < i) : ∃ last, s.c.last = some last ∧
    last.dt (s.c.snap (reportOf B p s i)) = 1 / 10 ∧
    last.dpkts (s.c.snap (reportOf B p s i)) = (delivered B p s.c).toNat ∧
    last.dspan (s.c.snap (reportOf B p s i)) = (sprayed s.c).toNat ∧
    last.dbytes (s.c.snap (reportOf B p s i)) = (sprayed s.c).toNat * 1224 := by
  obtain ⟨hc, -⟩ := h.counts hset hi
  have htMs : (UInt64.ofNat (tickMs * i)).toNat = tickMs * i := by
    have := hc.tMs
    exact UInt64.toNat_ofNat_of_lt' (by simp only [UInt64.size, tickMs] at this ⊢; omega)
  have hsub : tickMs * (i + 1) - tickMs * i = 100 := by
    simp only [tickMs]
    omega
  have hspan := hc.span_eq
  refine ⟨_, h.last.trans (if_neg h₀.ne'), ?_, ?_, ?_, ?_⟩
  · simp only [Snap.dt, RateController.snap, hc.tMs_eq, htMs, hsub]
    norm_num
  · simp only [Snap.dpkts, RateController.snap, hc.pkts_eq]
    omega
  · simp only [Snap.dspan, RateController.snap, reportOf, Option.getD_some]
    omega
  · simp only [Snap.dbytes, RateController.snap, hc.bytes_eq]
    omega

/-- From the second tick on the report measures the path. -/
theorem Ticked.signal (h₀ : 0 < i) : ∃ σ, s.c.signal (reportOf B p s i) = some σ ∧
    Passes B (1 - p) s.c σ := by
  obtain ⟨hlow, hhigh⟩ := hset.rate h.stage
  obtain ⟨hn, hn', hd, hd', -⟩ := hset.counts hi hlow hhigh
  obtain ⟨hB, hp₀, hp, -, -⟩ := id hset
  obtain ⟨last, hlast, hdt, hdpkts, hdspan, hdbytes⟩ := h.interval hset hi h₀
  have hmin := mul_le_mul (show 9 / 10 ≤ 1 - p by linarith)
    (le_min hlow (by linarith) : 12252240 ≤ min s.c.rate B) (by norm_num) (by linarith)
  have hspan : (sprayed s.c).toNat ≠ 0 := by
    intro hz
    rw [hz, Nat.cast_zero] at hn'
    linarith
  have hpkts : (delivered B p s.c).toNat ≠ 0 := by
    intro hz
    rw [hz, Nat.cast_zero] at hd'
    linarith
  refine ⟨Snap.measure s.c.seg last (s.c.snap (reportOf B p s i)), ?_, ?_⟩
  · simp only [RateController.signal, hlast, hdt, hdspan, hdpkts, hspan, hpkts, or_self, if_false]
    exact if_neg (by norm_num [minSampleDt])
  · refine passes_of_counts (n := (sprayed s.c).toNat) (d := (delivered B p s.c).toNat)
      (by linarith) (by linarith) (by linarith) hlow hn hn' hd hd' ?_ ?_ ?_
    · simp only [Snap.measure, hdpkts, hdspan]
    · simp only [Snap.measure, hdpkts, hdt, h.seg, Simulation.seg]
      push_cast
      ring
    · simp only [Snap.measure, Snap.sentRate, hdbytes, hdt]
      push_cast
      ring

theorem Ticked.tick : ∃ s', tick B p s i = .ok s' ∧ Ticked B (1 - p) m (i + 1) s' := by
  obtain ⟨hc, hsize⟩ := h.counts hset hi
  obtain ⟨hlow, hhigh⟩ := hset.rate h.stage
  obtain ⟨-, -, -, -, hdn⟩ := hset.counts hi hlow hhigh
  have htMs := hc.tMs
  have ht := hc.tMs_eq
  obtain ⟨out, c', hr⟩ := report_ok (c := s.c) (r := reportOf B p s i)
    (by rw [h.seg]; decide) (by omega) fun x hx => by
      have := h.times x hx
      rw [ht]
      simp only [tickMs] at this ⊢
      omega
  obtain ⟨e, htakes⟩ := RateController.report_takes hr
  refine ⟨counted B p s c', by rw [hc.tick_eq, hr]; rfl, ?_⟩
  have hnext : (Stage B (1 - p) m i c' ∧ Capped B (1 - p) c') ∧
      c'.last = some (s.c.snap (reportOf B p s i)) := by
    rcases Nat.eq_zero_or_pos i with rfl | h₀
    · have hlast : s.c.last = none := h.last
      have hseg : s.c.seg ≠ 0 := by rw [h.seg]; decide
      simp only [RateController.report, RateController.onReport, if_neg hseg, hlast] at hr
      obtain ⟨-, rfl⟩ := Prod.mk.inj (Checked.pure_eq_ok.mp hr)
      exact ⟨⟨h.stage.of_last _, h.capped⟩, rfl⟩
    · obtain ⟨σ, hsig, hσ⟩ := h.signal hset hi h₀
      have hstage := h.stage.signal hset.start (by linarith [hset.loss]) (by linarith [hset.share])
        hset.doublings h.max h.capped hr hsig hσ
      rw [Nat.sub_add_cancel h₀] at hstage
      exact ⟨hstage, htakes.last_of_signal hsig⟩
  obtain ⟨⟨hstage, hcapped⟩, hlast⟩ := hnext
  refine ⟨hstage, hcapped, ?_, htakes.seg.trans h.seg, hlast, ?_, ?_, ?_, ?_⟩
  · exact h.max.trans (le_of_eq (RateController.onReport_reported hr).max.symm)
  · have := hc.bytes_eq
    have := hc.span_eq
    have := h.bytes
    simp only [counted, reportOf] at *
    omega
  · have := hc.pkts_eq
    have := hc.span_eq
    have := h.pkts
    simp only [counted, reportOf] at *
    omega
  · have hbytes := hc.bytes_eq
    have hsent := h.sent
    simp only [counted]
    simp only [reportOf] at hbytes
    rw [hbytes]
    push_cast
    linarith
  · intro x hx
    rcases htakes.mem_delivered x hx with hx | hx
    · have := h.times x hx
      simp only [tickMs] at this ⊢
      omega
    · rw [hx, ht]

end Tick

/-! ## Runs -/

theorem ticked_new {B p : ℚ} {m ticks : Nat} {capMbps : ℚ} (hset : Setup B p m ticks)
    (hcap : 3 * B ≤ capMbps * 1000000 / 8) :
    Ticked B (1 - p) m 0 ⟨.new seg capMbps, 0, 0, 0⟩ := by
  have hq : 0 ≤ 1 - p := by linarith [hset.loss]
  refine ⟨.doubling (doubles_new seg hset.start hq hcap), ?_, le_max_of_le_left hcap, rfl, rfl,
    by simp, le_rfl, by norm_num, ?_⟩
  · intro x hx
    cases hx
  · intro x hx
    cases hx

theorem ticked_run {B p : ℚ} {m ticks : Nat} {capMbps : ℚ} (hset : Setup B p m ticks)
    (hcap : 3 * B ≤ capMbps * 1000000 / 8) {n : Nat} (hn : n ≤ ticks) :
    ∃ s, (List.range n).foldlM (tick B p) ⟨.new seg capMbps, 0, 0, 0⟩ = .ok s ∧
      Ticked B (1 - p) m n s := by
  induction n with
  | zero => exact ⟨_, rfl, ticked_new hset hcap⟩
  | succ n ih =>
    obtain ⟨s, hs, hticked⟩ := ih (Nat.le_of_succ_le hn)
    obtain ⟨s', hs', hticked'⟩ := hticked.tick hset hn
    refine ⟨s', ?_, hticked'⟩
    rw [List.range_succ, List.foldlM_append, hs, Checked.ok_bind, List.foldlM_cons, hs']
    rfl

/-- **The simulation converges.** For any bottleneck of at least 112 Mbit/s, any loss of
up to a tenth and any number of ticks (for which the counters do not overflow), with the
cap three times the bottleneck or more: `simulate` returns a rate of at most 2.2 times the
bottleneck, and, once there were nine more ticks than the doublings that reach the
bottleneck from 100 Mbit/s, one between 0.89 and 1.3 times the bottleneck. -/
theorem simulate_converges (bottleneckMbps p capMbps : ℚ) (ticks : Nat)
    (hb : 112 ≤ bottleneckMbps) (hp₀ : 0 ≤ p) (hp : p ≤ 1 / 10)
    (hcap : 3 * bottleneckMbps ≤ capMbps) (hfit : ticks * bottleneckMbps ≤ 2 ^ 48) :
    ∃ r, simulate bottleneckMbps p capMbps ticks = .ok r ∧ r ≤ 11 / 5 * bottleneckMbps ∧
      ∀ m, bottleneckMbps ≤ 2 ^ m * 100 → m + 9 ≤ ticks →
        89 / 100 * bottleneckMbps ≤ r ∧ r ≤ 13 / 10 * bottleneckMbps := by
  obtain ⟨B, hB⟩ : ∃ B, B = bottleneckMbps * 1000000 / 8 := ⟨_, rfl⟩
  have setup : ∀ {m : Nat}, bottleneckMbps ≤ 2 ^ m * 100 → Setup B p m ticks := by
    intro m hm
    refine ⟨by linarith, hp₀, hp, ?_, ?_⟩
    · norm_num [startRateBps]
      linarith
    · have : (ticks : ℚ) * (11 / 50 * B) = 27500 * (ticks * bottleneckMbps) := by
        rw [hB]
        ring
      linarith
  have hcap' : 3 * B ≤ capMbps * 1000000 / 8 := by linarith
  obtain ⟨m₀, hm₀⟩ := pow_unbounded_of_one_lt (bottleneckMbps / 100) (one_lt_two (α := ℚ))
  obtain ⟨s, hs, hticked⟩ := ticked_run (setup (m := m₀) (by linarith)) hcap' le_rfl
  refine ⟨s.c.rate * 8 / 1000000, ?_, ?_, fun m hm hticks => ?_⟩
  · simp only [simulate, ← hB, hs, Checked.ok_bind]
    rfl
  · linarith [((setup (by linarith)).rate hticked.stage).2]
  · obtain ⟨s', hs', hticked'⟩ := ticked_run (setup hm) hcap' le_rfl
    cases hs.symm.trans hs'
    have hset := setup hm
    have hover := (hticked'.stage.bounds hset.start (by linarith) (by linarith) hset.doublings).2
    cases hticked'.stage with
    | doubling h => have := hover h.startup; omega
    | overshot hs | creeping hs => have := hover hs; omega
    | found _ hg h =>
      obtain ⟨hlow, hhigh⟩ := hg.rate_near h (by linarith) (by linarith) (by linarith)
      exact ⟨by linarith, by linarith⟩

theorem simulate_converges_lossy : ∃ r, simulate 500 (1 / 20) 10000 600 = .ok r ∧
    445 ≤ r ∧ r ≤ 650 := by
  obtain ⟨r, hr, -, hfound⟩ := simulate_converges 500 (1 / 20) 10000 600
    (by norm_num) (by norm_num) (by norm_num) (by norm_num) (by norm_num)
  obtain ⟨hlow, hhigh⟩ := hfound 3 (by norm_num) (by norm_num)
  exact ⟨r, hr, by linarith, by linarith⟩

end Simulation

end AtpExperiment
