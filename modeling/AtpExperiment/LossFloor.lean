/-
The loss floor does not ratchet.

The smoothed loss and the floor are averages of the interval losses reported so
far, so they stay between the smallest and the largest of them. A report moves
the floor in one of three ways (`FloorMoves`): it is held during a cooldown,
relaxed upwards by a share of at most `CUT_EXCESS`, or falls towards a cleaner
sample, which is also the only move that measures its rate anew. Over any run
at a rate the floor was not measured at, it therefore rises by two hundredths
of a percent a report at most, whatever the loss (`floor_no_ratchet`).
-/
import AtpExperiment.RateRuns

namespace AtpExperiment

open Rate

/-! ## Bounds of a sample -/

/-- No smaller than some of the numbers and no larger than some. -/
def Between (xs : List ℚ) (x : ℚ) : Prop := (∃ a ∈ xs, a ≤ x) ∧ ∃ b ∈ xs, x ≤ b

namespace Between

variable {xs ys : List ℚ} {x y z : ℚ}

theorem of_mem (h : x ∈ xs) : Between xs x := ⟨⟨x, h, le_rfl⟩, x, h, le_rfl⟩

theorem mono (h : Between xs x) (hsub : xs ⊆ ys) : Between ys x := by
  obtain ⟨⟨a, ha, hle⟩, b, hb, hge⟩ := h
  exact ⟨⟨a, hsub ha, hle⟩, b, hsub hb, hge⟩

theorem trans (hy : Between xs y) (hz : Between xs z) (h : Between [y, z] x) : Between xs x := by
  obtain ⟨⟨a, ha, hax⟩, b, hb, hxb⟩ := h
  have hmem : ∀ u ∈ [y, z], Between xs u := by
    intro u hu
    simp only [List.mem_cons, List.not_mem_nil, or_false] at hu
    rcases hu with rfl | rfl
    · exact hy
    · exact hz
  obtain ⟨⟨a', ha', hle⟩, -⟩ := hmem a ha
  obtain ⟨-, b', hb', hge⟩ := hmem b hb
  exact ⟨⟨a', ha', hle.trans hax⟩, b', hb', hxb.trans hge⟩

theorem step {k : ℚ} (h0 : 0 ≤ k) (h1 : k ≤ 1) : Between [y, z] (y + k * (z - y)) := by
  rcases le_total y z with h | h
  · refine ⟨⟨y, by simp, ?_⟩, z, by simp, ?_⟩
    · have := mul_nonneg h0 (sub_nonneg.mpr h)
      linarith
    · have := mul_nonneg (sub_nonneg.mpr h1) (sub_nonneg.mpr h)
      linarith
  · refine ⟨⟨z, by simp, ?_⟩, y, by simp, ?_⟩
    · have := mul_nonneg (sub_nonneg.mpr h1) (sub_nonneg.mpr h)
      linarith
    · have := mul_nonneg h0 (sub_nonneg.mpr h)
      linarith

end Between

/-- The interval losses of the calls that had a signal. -/
def rawLosses (calls : List Call) : List ℚ :=
  calls.filterMap fun l => (l.before.signal l.report).map (·.rawLoss)

namespace RateController

variable {c c' : RateController} {r : ProgressReport} {σ : Signal} {e : Exit}
variable {loss f fr f' fr' : ℚ} {xs : List ℚ}

/-! ## One report -/

/-- What a smoothed sample makes of a floor `f` measured at `fr`. -/
inductive FloorMoves (c : RateController) (loss f fr : ℚ) : ℚ → ℚ → Prop
  | held (hle : f ≤ loss) (hcool : 0 < c.cooldown) : FloorMoves c loss f fr f fr
  | relaxed {k : ℚ} (hle : f ≤ loss) (hcool : c.cooldown = 0)
    (hk : k = floorRelax ∧ c.rate ≤ fr * floorRateTol ∨ k = floorRelaxSlow) :
    FloorMoves c loss f fr (f + k * (min loss (f + cutExcess) - f)) fr
  | fallen (hlt : loss < f) : FloorMoves c loss f fr (f + floorFall * (loss - f)) c.rate

theorem trackFloor_moves (h : c.lossFloor = some (f, fr)) (loss : ℚ) :
    ∃ f' fr', (c.trackFloor loss).2 = some (f', fr') ∧ FloorMoves c loss f fr f' fr' := by
  simp only [trackFloor, h]
  split
  · next hheld => exact ⟨f, fr, rfl, .held hheld.1 hheld.2⟩
  next hheld =>
  split
  · next hle =>
    have hcool : c.cooldown = 0 := Nat.eq_zero_of_not_pos fun hpos => hheld ⟨hle, hpos⟩
    refine ⟨_, fr, rfl, .relaxed hle hcool ?_⟩
    split
    · next hrate => exact .inl ⟨rfl, hrate⟩
    · exact .inr rfl
  · next hlt => exact ⟨_, c.rate, rfl, .fallen (not_le.mp hlt)⟩

namespace FloorMoves

theorem between (h : FloorMoves c loss f fr f' fr') : Between [f, loss] f' := by
  cases h with
  | held => exact .of_mem List.mem_cons_self
  | @relaxed k hle _ hk =>
    have hstep : Between [f, min loss (f + cutExcess)]
        (f + k * (min loss (f + cutExcess) - f)) := by
      refine .step ?_ ?_
      · rcases hk with ⟨rfl, -⟩ | rfl <;> norm_num [floorRelax, floorRelaxSlow]
      · rcases hk with ⟨rfl, -⟩ | rfl <;> norm_num [floorRelax, floorRelaxSlow]
    have hcap : Between [f, loss] (min loss (f + cutExcess)) :=
      ⟨⟨f, by simp, le_min hle (by norm_num [cutExcess])⟩, loss, by simp, min_le_left _ _⟩
    exact .trans (.of_mem List.mem_cons_self) hcap hstep
  | fallen => exact .step (by norm_num [floorFall]) (by norm_num [floorFall])

/-- A floor rises by no more than the share of `CUT_EXCESS` its rate allows. -/
theorem rise (h : FloorMoves c loss f fr f' fr') : f' ≤ f + floorRelax * cutExcess ∧
    (fr * floorRateTol < c.rate → f' ≤ f + floorRelaxSlow * cutExcess) ∧
    (0 < c.cooldown → f' ≤ f) := by
  have hpos : 0 < floorRelaxSlow * cutExcess := by norm_num [floorRelaxSlow, cutExcess]
  have hshare : floorRelaxSlow * cutExcess ≤ floorRelax * cutExcess := by
    norm_num [floorRelaxSlow, floorRelax, cutExcess]
  cases h with
  | held => exact ⟨by linarith, fun _ => by linarith, fun _ => le_rfl⟩
  | @relaxed k _ hcool hk =>
    have hgap : min loss (f + cutExcess) - f ≤ cutExcess := by
      have := min_le_right loss (f + cutExcess)
      linarith
    have hk0 : 0 ≤ k := by
      rcases hk with ⟨rfl, -⟩ | rfl <;> norm_num [floorRelax, floorRelaxSlow]
    have hle := mul_le_mul_of_nonneg_left hgap hk0
    refine ⟨?_, fun hrate => ?_, fun hpos => absurd hpos (by omega)⟩
    · rcases hk with ⟨rfl, -⟩ | rfl <;> linarith
    · rcases hk with ⟨-, hrate'⟩ | rfl
      · exact absurd hrate (not_lt.mpr hrate')
      · linarith
  | fallen hlt =>
    have hfall : floorFall * (loss - f) ≤ 0 :=
      mul_nonpos_of_nonneg_of_nonpos (by norm_num [floorFall]) (by linarith)
    exact ⟨by linarith, fun _ => by linarith, fun _ => by linarith⟩

theorem rate (h : FloorMoves c loss f fr f' fr') (hne : fr' ≠ fr) : loss < f := by
  cases h with
  | held | relaxed => exact absurd rfl hne
  | fallen hlt => exact hlt

end FloorMoves

theorem Takes.losses (h : Takes c r e c') :
    c.signal r = none ∧ c'.lossEwma = c.lossEwma ∧ c'.lossFloor = c.lossFloor ∨
    ∃ σ, c.signal r = some σ ∧ c'.lossEwma = some (c.smooth σ.rawLoss) ∧
      c'.lossFloor = (c.trackFloor (c.smooth σ.rawLoss)).2 := by
  cases h with
  | quiet hsig hc => rcases hc with rfl | rfl <;> exact .inl ⟨hsig, rfl, rfl⟩
  | appLimited hsig | cooling hsig => exact .inr ⟨_, hsig, rfl, rfl⟩
  | decided hsig _ _ _ hd =>
    exact .inr ⟨_, hsig, hd.sameSamples.lossEwma, hd.sameSamples.lossFloor⟩

/-- A floor after a report: as it was, or moved by the report's signal. -/
theorem Takes.floor (h : Takes c r e c') (hf : c.lossFloor = some (f, fr)) :
    ∃ f' fr', c'.lossFloor = some (f', fr') ∧ (f' = f ∧ fr' = fr ∨
      ∃ σ, c.signal r = some σ ∧ FloorMoves c (c.smooth σ.rawLoss) f fr f' fr') := by
  rcases h.losses with ⟨-, -, hsame⟩ | ⟨σ, hsig, -, hmoved⟩
  · exact ⟨f, fr, hsame.trans hf, .inl ⟨rfl, rfl⟩⟩
  · obtain ⟨f', fr', htrack, hm⟩ := trackFloor_moves hf (c.smooth σ.rawLoss)
    exact ⟨f', fr', hmoved.trans htrack, .inr ⟨σ, hsig, hm⟩⟩

/-! ## Runs -/

/-- Smoothed loss and floor lie between the interval losses `xs`; nothing has
been measured where there are none. -/
inductive Averages (xs : List ℚ) (c : RateController) : Prop
  | unmeasured (hxs : xs = []) (hl : c.lossEwma = none) (hf : c.lossFloor = none)
  | measured {loss f fr : ℚ} (hl : c.lossEwma = some loss) (hf : c.lossFloor = some (f, fr))
    (hloss : Between xs loss) (hfloor : Between xs f)

theorem Averages.smooth (h : Averages xs c) (raw : ℚ) :
    Between (xs ++ [raw]) (c.smooth raw) := by
  have hraw : Between (xs ++ [raw]) raw := .of_mem (by simp)
  cases h with
  | unmeasured _ hl => simpa only [RateController.smooth, hl] using hraw
  | @measured loss _ _ hl _ hloss _ =>
    have hmix : c.smooth raw = loss + lossEwmaAlpha * (raw - loss) := by
      simp only [RateController.smooth, hl]
      ring
    rw [hmix]
    exact .trans (hloss.mono (List.subset_append_left _ _)) hraw
      (.step (by norm_num [lossEwmaAlpha]) (by norm_num [lossEwmaAlpha]))

theorem Averages.takes (h : Averages xs c) (ht : Takes c r e c') :
    Averages (xs ++ ((c.signal r).map (·.rawLoss)).toList) c' := by
  rcases ht.losses with ⟨hsig, hl', hf'⟩ | ⟨σ, hsig, hl', hf'⟩
  · rw [hsig, Option.map_none, Option.toList_none, List.append_nil]
    cases h with
    | unmeasured hxs hl hf => exact .unmeasured hxs (hl'.trans hl) (hf'.trans hf)
    | measured hl hf hloss hfloor => exact .measured (hl'.trans hl) (hf'.trans hf) hloss hfloor
  rw [hsig, Option.map_some, Option.toList_some]
  have hsmooth := h.smooth σ.rawLoss
  cases h with
  | unmeasured _ _ hf =>
    rw [trackFloor, hf] at hf'
    exact .measured hl' hf' hsmooth hsmooth
  | measured _ hf _ hfloor =>
    obtain ⟨f', fr', htrack, hm⟩ := trackFloor_moves hf (c.smooth σ.rawLoss)
    have hold := hfloor.mono (List.subset_append_left xs [σ.rawLoss])
    exact .measured hl' (hf'.trans htrack) hsmooth (.trans hold hsmooth hm.between)

end RateController

open RateController

variable {c c' : RateController} {calls : List Call}

theorem averages_of_trace (h : Runs.Trace Called c calls c') (hc : c.Averages []) :
    c'.Averages (rawLosses calls) := by
  refine h.history (fun ls c => c.Averages (rawLosses ls)) hc ?_
  rintro ls _ l _ hls hst
  obtain ⟨e, ht⟩ := hst.takes
  obtain ⟨rfl, rfl, -⟩ := hst
  rw [rawLosses, Runs.filterMap_concat]
  exact hls.takes ht

/-- The controller sends faster than the rate its floor was measured at, by
more than the tolerance. -/
def RateController.Outruns (c : RateController) : Prop :=
  ∀ f fr, c.lossFloor = some (f, fr) → fr * floorRateTol < c.rate

/-- A run whose reports all find the controller outrunning its floor. -/
theorem floor_of_trace (h : Runs.Trace Called c calls c') (hout : ∀ l ∈ calls, l.before.Outruns)
    {f fr : ℚ} (hf : c.lossFloor = some (f, fr)) :
    ∃ f' fr', c'.lossFloor = some (f', fr') ∧
      f' ≤ f + floorRelaxSlow * cutExcess * (calls.length : ℚ) := by
  induction h generalizing f fr with
  | nil => exact ⟨f, fr, hf, by simp⟩
  | @cons s t u l ls hst _ ih =>
    obtain ⟨e, ht⟩ := hst.takes
    obtain ⟨rfl, rfl, -⟩ := hst
    have hrate := hout l List.mem_cons_self f fr hf
    obtain ⟨f₁, fr₁, hf₁, hstep⟩ := ht.floor hf
    have hrise : f₁ ≤ f + floorRelaxSlow * cutExcess := by
      rcases hstep with ⟨rfl, -⟩ | ⟨σ, -, hm⟩
      · norm_num [floorRelaxSlow, cutExcess]
      · exact hm.rise.2.1 hrate
    obtain ⟨f', fr', hf', hle⟩ := ih (fun l' hl' => hout l' (List.mem_cons_of_mem l hl')) hf₁
    refine ⟨f', fr', hf', ?_⟩
    rw [List.length_cons, Nat.cast_succ]
    linarith

/-- **The loss floor cannot ratchet.** After any reports with at least one
signal, the smoothed loss and the floor lie between the smallest and the
largest interval loss. A further report raises the floor by `FLOOR_RELAX` of
`CUT_EXCESS` at most, by `FLOOR_RELAX_SLOW` of it when the rate is above the
measurement rate and its tolerance, and not at all in a cooldown; the
measurement rate changes only for a smoothed loss below the floor. Over any
further reports that all find the rate above that tolerance, the floor rises by
`0.0002` a report at most. -/
theorem floor_no_ratchet (seg : Nat) (maxRateMbps : ℚ)
    (h : Runs.Trace Called (.new seg maxRateMbps) calls c) :
    (rawLosses calls ≠ [] → ∃ loss f fr, c.lossEwma = some loss ∧ c.lossFloor = some (f, fr) ∧
      Between (rawLosses calls) loss ∧ Between (rawLosses calls) f) ∧
    (∀ l c', Called c l c' → ∀ f fr, c.lossFloor = some (f, fr) →
      ∃ f' fr', c'.lossFloor = some (f', fr') ∧
        f' ≤ f + floorRelax * cutExcess ∧
        (fr * floorRateTol < c.rate → f' ≤ f + floorRelaxSlow * cutExcess) ∧
        (0 < c.cooldown → f' ≤ f) ∧
        (fr' ≠ fr → ∃ loss, c'.lossEwma = some loss ∧ loss < f)) ∧
    ∀ ls c', Runs.Trace Called c ls c' → (∀ l ∈ ls, l.before.Outruns) →
      ∀ f fr, c.lossFloor = some (f, fr) → ∃ f' fr', c'.lossFloor = some (f', fr') ∧
        f' ≤ f + 2 / 10000 * (ls.length : ℚ) := by
  refine ⟨fun hne => ?_, fun l c' hl f fr hf => ?_, fun ls c' hls hout f fr hf => ?_⟩
  · have havg : c.Averages (rawLosses calls) := averages_of_trace h (.unmeasured rfl rfl rfl)
    cases havg with
    | unmeasured hxs => exact absurd hxs hne
    | measured hl hf hloss hfloor => exact ⟨_, _, _, hl, hf, hloss, hfloor⟩
  · obtain ⟨e, ht⟩ := hl.takes
    obtain ⟨rfl, rfl, -⟩ := hl
    obtain ⟨f', fr', hf', hstep⟩ := ht.floor hf
    refine ⟨f', fr', hf', ?_⟩
    rcases hstep with ⟨rfl, rfl⟩ | ⟨σ, hsig, hm⟩
    · refine ⟨?_, fun _ => ?_, fun _ => le_rfl, fun hne => absurd rfl hne⟩
      · norm_num [floorRelax, cutExcess]
      · norm_num [floorRelaxSlow, cutExcess]
    · obtain ⟨hrise, hslow, hcool⟩ := hm.rise
      refine ⟨hrise, hslow, hcool, fun hne => ⟨_, ?_, hm.rate hne⟩⟩
      rcases ht.losses with ⟨hnone, -⟩ | ⟨σ', hsig', hl', -⟩
      · rw [hsig] at hnone
        cases hnone
      · rw [hsig] at hsig'
        cases hsig'
        exact hl'
  · obtain ⟨f', fr', hf', hle⟩ := floor_of_trace hls hout hf
    refine ⟨f', fr', hf', ?_⟩
    have hshare : floorRelaxSlow * cutExcess = 2 / 10000 := by
      norm_num [floorRelaxSlow, cutExcess]
    rwa [hshare] at hle

/-- Half of the packets of the first interval are lost, and the rate doubles:
the next report raises the floor of `1/2` by no more than `0.0002`. -/
theorem floor_no_ratchet_doubled : rawLosses doublingCalls ≠ [] ∧
    ∀ l c', Called doubledExample l c' →
      ∃ f' fr', c'.lossFloor = some (f', fr') ∧ f' ≤ 1 / 2 + 2 / 10000 := by
  obtain ⟨-, -, hrun⟩ := floor_no_ratchet 1224 5000 doublingCalls_trace
  refine ⟨by decide +kernel, fun l c' hl => ?_⟩
  have hout : ∀ l' ∈ [l], l'.before.Outruns := by
    intro l' hl' f fr hf
    rw [List.mem_singleton.mp hl', hl.1] at hf ⊢
    cases hf
    norm_num [floorRateTol, doubledExample]
  obtain ⟨f', fr', hf', hle⟩ := hrun [l] c' (.cons hl .nil) hout (1 / 2) 12500000 rfl
  exact ⟨f', fr', hf', by simpa using hle⟩

end AtpExperiment
