/-
The window of delivered rates is exact.

`on_report` pops the window at its front only. That keeps the samples that are
due because the times recorded increase: an interval is measured from the last
report used, and a report less than 50 ms after it, or before it, is merged
into the next (`report_last`). So the window is the recorded samples of the
last 2.5 s (`WindowInv`), at most 51 of them, and its maximum is theirs
(`delivered_window_exact`).
-/
import AtpExperiment.Lib.TimeWindow
import AtpExperiment.RateRuns

namespace AtpExperiment

open Rate TimeWindow

/-- The receiver time of a sample. -/
def sampleMs (s : UInt64 × ℚ) : ℕ := s.1.toNat

namespace RateController

variable {c c' : RateController} {r : ProgressReport} {σ : Signal} {e : Exit}

/-- The sample a report adds to the window: none without a signal, or when the
interval was app-limited. -/
def sample (c : RateController) (r : ProgressReport) : Option (UInt64 × ℚ) :=
  (c.signal r).bind fun σ =>
    if σ.sentRate < appLimitedFrac * c.rate then none else some (r.tMs, σ.delivered)

/-! ## One report -/

/-- `expire` pops the front; the limit of the sample it stops at may overflow,
and no other. -/
theorem expire_eq (t : UInt64) (ds : List (UInt64 × ℚ)) :
    expire t ds =
      if ∀ s ∈ (pop sampleMs 2500 t.toNat ds).head?, sampleMs s + 2500 < 2 ^ 64 then
        .ok (pop sampleMs 2500 t.toNat ds)
      else .error .overflow := by
  have hwidth : deliveredWindowMs.toNat = 2500 := rfl
  have ht := t.toNat_lt
  induction ds with
  | nil => rfl
  | cons a ds ih =>
    obtain ⟨u, d⟩ := a
    by_cases hlt : u.toNat + 2500 < 2 ^ 64
    · have hadd : u.toNat + deliveredWindowMs.toNat < 2 ^ 64 := by rwa [hwidth]
      have hlimit : (u + deliveredWindowMs).toNat = u.toNat + 2500 := by
        rw [UInt64.toNat_add, hwidth, Nat.mod_eq_of_lt hlt]
      simp only [expire, Checked.addU64_of_lt hadd, Checked.ok_bind, UInt64.lt_iff_toNat_lt, hlimit]
      split
      · next hold =>
        have hpop : pop sampleMs 2500 t.toNat ((u, d) :: ds) = pop sampleMs 2500 t.toNat ds :=
          pop_cons_of_lt hold
        rw [ih, hpop]
      · next hold =>
        have hpop : pop sampleMs 2500 t.toNat ((u, d) :: ds) = (u, d) :: ds :=
          pop_cons_of_le (not_lt.mp hold)
        have hhead : ∀ s ∈ ((u, d) :: ds).head?, sampleMs s + 2500 < 2 ^ 64 := by
          rintro s hs
          cases hs
          exact hlt
        rw [hpop, if_pos hhead]
        rfl
    · -- The limit lies past the largest time, so the front is fresh.
      have hover : ¬ u.toNat + deliveredWindowMs.toNat < 2 ^ 64 := by rwa [hwidth]
      have hpop : pop sampleMs 2500 t.toNat ((u, d) :: ds) = (u, d) :: ds :=
        pop_cons_of_le (show t.toNat ≤ u.toNat + 2500 by omega)
      have hhead : ¬ ∀ s ∈ ((u, d) :: ds).head?, sampleMs s + 2500 < 2 ^ 64 :=
        fun h => hlt (h (u, d) rfl)
      rw [hpop, if_neg hhead]
      simp only [expire, Checked.addU64, if_neg hover]
      rfl

theorem eq_pop_of_expire {t : UInt64} {ds ds' : List (UInt64 × ℚ)} (h : expire t ds = .ok ds') :
    ds' = pop sampleMs 2500 t.toNat ds := by
  rw [expire_eq] at h
  split at h
  · exact (Except.ok.inj h).symm
  · cases h

/-- On samples in order, popping returns if some fresh sample's limit does not
overflow: the sample it stops at is the oldest of them. -/
theorem expire_ok_iff {t : UInt64} {ds : List (UInt64 × ℚ)} {gap : ℕ}
    (hds : Spaced sampleMs gap ds) (hne : ∃ s ∈ ds, t.toNat ≤ sampleMs s + 2500) :
    (∃ ds', expire t ds = .ok ds') ↔
      ∃ s ∈ ds, t.toNat ≤ sampleMs s + 2500 ∧ sampleMs s + 2500 < 2 ^ 64 := by
  have hmem : ∀ s, s ∈ pop sampleMs 2500 t.toNat ds ↔ s ∈ ds ∧ t.toNat ≤ sampleMs s + 2500 := by
    intro s
    rw [hds.pop_eq_filter, List.mem_filter, fresh_iff]
  have hspaced : Spaced sampleMs gap (pop sampleMs 2500 t.toNat ds) := by
    rw [hds.pop_eq_filter]
    exact List.Pairwise.sublist List.filter_sublist hds
  rw [expire_eq]
  constructor
  · rintro ⟨ds', h⟩
    split at h
    · next hhead =>
      obtain ⟨s, hs⟩ := hne
      cases hpop : (pop sampleMs 2500 t.toNat ds).head? with
      | none =>
        rw [List.head?_eq_none_iff] at hpop
        exact absurd ((hmem s).mpr hs) (by simp [hpop])
      | some a =>
        obtain ⟨ha, hfresh⟩ := (hmem a).mp (List.mem_of_mem_head? hpop)
        exact ⟨a, ha, hfresh, hhead a hpop⟩
    · cases h
  · rintro ⟨s, hs, hfresh, hlt⟩
    refine ⟨_, if_pos fun a ha => ?_⟩
    have := hspaced.head_le ha ((hmem s).mpr ⟨hs, hfresh⟩)
    omega

theorem le_dt_iff {last snap : Snap} :
    minSampleDt ≤ last.dt snap ↔ last.tMs.toNat + 50 ≤ snap.tMs.toNat := by
  have hms : minSampleDt ≤ last.dt snap ↔
      ((50 : ℕ) : ℚ) ≤ ((snap.tMs.toNat - last.tMs.toNat : ℕ) : ℚ) := by
    rw [Snap.dt, le_div_iff₀ (by norm_num)]
    norm_num [minSampleDt]
  rw [hms, Nat.cast_le]
  omega

theorem report_merged {out : Option ℚ} {last : Snap} (h : c.report r = .ok (out, c'))
    (hlast : c.last = some last) (hlt : last.dt (c.snap r) < minSampleDt) : c' = c := by
  have hms : ((r.tMs.toNat - last.tMs.toNat : ℕ) : ℚ) / 1000 < minSampleDt := hlt
  simp only [report, onReport, hlast, if_pos hms] at h
  split at h
  · cases h
  · exact (Prod.mk.inj (Checked.pure_eq_ok.mp h)).2.symm

/-- The time of the report used last. -/
def lastMs (c : RateController) : ℕ := (c.last.map fun last => last.tMs.toNat).getD 0

theorem lastMs_mono {out : Option ℚ} (h : c.report r = .ok (out, c')) : c.lastMs ≤ c'.lastMs := by
  cases hlast : c.last with
  | none => simp [lastMs, hlast]
  | some last =>
    by_cases hlt : last.dt (c.snap r) < minSampleDt
    · rw [report_merged h hlast hlt]
    · obtain ⟨e, ht⟩ := report_takes h
      have hle : last.tMs.toNat ≤ (c.snap r).tMs.toNat := by
        have := le_dt_iff.mp (not_lt.mp hlt)
        omega
      rcases ht.last with hl | hl
      · simp only [lastMs, hl, le_refl]
      · simpa only [lastMs, hl, hlast, Option.map_some, Option.getD_some] using hle

/-- A sample is taken 50 ms after the report used last, or later. -/
theorem sample_eq_some {s : UInt64 × ℚ} (h : c.sample r = some s) :
    s.1 = r.tMs ∧ 0 ≤ s.2 ∧ c.lastMs + 50 ≤ sampleMs s := by
  obtain ⟨σ, hsig, hs⟩ := Option.bind_eq_some_iff.mp h
  split at hs
  · cases hs
  cases hs
  obtain ⟨last, hlast, hdt, -, -, rfl⟩ := signal_eq_some hsig
  refine ⟨rfl, ?_, ?_⟩
  · simp only [Snap.measure, Snap.dt]
    positivity
  · simp only [lastMs, hlast, Option.map_some, Option.getD_some]
    exact le_dt_iff.mp hdt

theorem Takes.window (h : Takes c r e c') :
    (c.sample r = none ∧ c'.delivered = c.delivered) ∨
    ∃ s, c.sample r = some s ∧ expire r.tMs (c.delivered ++ [s]) = .ok c'.delivered ∧
      c'.last = some (c.snap r) := by
  cases h with
  | quiet hsig hc =>
    refine .inl ⟨by rw [sample, hsig]; rfl, ?_⟩
    rcases hc with rfl | rfl <;> rfl
  | appLimited hsig hs =>
    refine .inl ⟨?_, rfl⟩
    rw [sample, hsig, Option.bind_some, if_pos hs]
  | @cooling σ ds hsig hs hds =>
    refine .inr ⟨(r.tMs, σ.delivered), ?_, hds, rfl⟩
    rw [sample, hsig, Option.bind_some, if_neg (not_lt.mpr hs)]
  | @decided σ ds d c' hsig hs hds _ hd =>
    refine .inr ⟨(r.tMs, σ.delivered), ?_, ?_, hd.sameSamples.last⟩
    · rw [sample, hsig, Option.bind_some, if_neg (not_lt.mpr hs)]
    · rw [hds, hd.sameSamples.delivered]
      rfl

/-! ## The window and what was recorded -/

/-- The window is the samples recorded that were fresh at the newest of them. -/
structure WindowInv (recorded : List (UInt64 × ℚ)) (c : RateController) : Prop where
  spaced : Spaced sampleMs 50 recorded
  nonneg : ∀ s ∈ recorded, 0 ≤ s.2
  kept : ∃ now ≤ c.lastMs, (∀ s ∈ recorded, sampleMs s ≤ now) ∧
    c.delivered = recorded.filter (fresh sampleMs 2500 now)

theorem windowInv_new (seg : Nat) (maxRateMbps : ℚ) : WindowInv [] (new seg maxRateMbps) where
  spaced := .nil
  nonneg := by simp
  kept := ⟨0, Nat.zero_le _, by simp, rfl⟩

namespace WindowInv

variable {recorded : List (UInt64 × ℚ)} {s : UInt64 × ℚ}

theorem spaced_push (hw : WindowInv recorded c) (hs : c.sample r = some s) :
    Spaced sampleMs 50 (recorded ++ [s]) := by
  obtain ⟨now, hnow, hle, -⟩ := hw.kept
  obtain ⟨-, -, hlast⟩ := sample_eq_some hs
  refine List.pairwise_append.mpr ⟨hw.spaced, List.pairwise_singleton _ _, fun a ha b hb => ?_⟩
  rw [List.mem_singleton.mp hb]
  have := hle a ha
  omega

/-- The pops after a push leave the fresh ones of all recorded samples. -/
theorem pop_push (hw : WindowInv recorded c) (hs : c.sample r = some s) :
    pop sampleMs 2500 r.tMs.toNat (c.delivered ++ [s]) =
      (recorded ++ [s]).filter (fresh sampleMs 2500 r.tMs.toNat) := by
  obtain ⟨now, hnow, -, hkept⟩ := hw.kept
  obtain ⟨ht, -, hlast⟩ := sample_eq_some hs
  rw [← ht]
  exact TimeWindow.pop_push (hw.spaced_push hs) hkept (by omega)

theorem pushed {out : Option ℚ} (hw : WindowInv recorded c) (hs : c.sample r = some s)
    (h : c.report r = .ok (out, c')) : c'.last = some (c.snap r) ∧
      c'.delivered = (recorded ++ [s]).filter (fresh sampleMs 2500 r.tMs.toNat) := by
  obtain ⟨e, ht⟩ := report_takes h
  rcases ht.window with ⟨hnone, -⟩ | ⟨s', hs', hds, hlast⟩
  · rw [hs] at hnone
    cases hnone
  · cases hs.symm.trans hs'
    exact ⟨hlast, by rw [eq_pop_of_expire hds, hw.pop_push hs]⟩

theorem le_pushed (hw : WindowInv recorded c) (hs : c.sample r = some s) :
    ∀ t ∈ recorded ++ [s], sampleMs t ≤ r.tMs.toNat := by
  obtain ⟨now, hnow, hle, -⟩ := hw.kept
  obtain ⟨htime, -, hlate⟩ := sample_eq_some hs
  have hms : sampleMs s = r.tMs.toNat := by rw [sampleMs, htime]
  intro t ht
  rcases List.mem_append.mp ht with ht | ht
  · have := hle t ht
    omega
  · rw [List.mem_singleton.mp ht]
    exact hms.le

theorem nonneg_push (hw : WindowInv recorded c) (hs : c.sample r = some s) :
    ∀ t ∈ recorded ++ [s], 0 ≤ t.2 := by
  intro t ht
  rcases List.mem_append.mp ht with ht | ht
  · exact hw.nonneg t ht
  · rw [List.mem_singleton.mp ht]
    exact (sample_eq_some hs).2.1

theorem step {out : Option ℚ} (hw : WindowInv recorded c) (h : c.report r = .ok (out, c')) :
    WindowInv (recorded ++ (c.sample r).toList) c' := by
  cases hs : c.sample r with
  | none =>
    obtain ⟨e, ht⟩ := report_takes h
    obtain ⟨now, hnow, hle, hkept⟩ := hw.kept
    have hsame : c'.delivered = c.delivered := by
      rcases ht.window with ⟨-, hsame⟩ | ⟨s, hs', -⟩
      · exact hsame
      · cases hs.symm.trans hs'
    rw [Option.toList_none, List.append_nil]
    exact ⟨hw.spaced, hw.nonneg, now, hnow.trans (lastMs_mono h), hle, hsame.trans hkept⟩
  | some s =>
    obtain ⟨hlast, hds⟩ := hw.pushed hs h
    rw [Option.toList_some]
    refine ⟨hw.spaced_push hs, hw.nonneg_push hs, r.tMs.toNat, ?_, hw.le_pushed hs, hds⟩
    simp [lastMs, hlast, snap]

theorem spaced_delivered (hw : WindowInv recorded c) : Spaced sampleMs 50 c.delivered := by
  obtain ⟨now, -, -, hkept⟩ := hw.kept
  rw [hkept]
  exact List.Pairwise.sublist List.filter_sublist hw.spaced

/-- A report returns unless it adds a sample and the limits of all samples that
are fresh then overflow. -/
theorem report_ok_iff (hw : WindowInv recorded c) (hseg : c.seg ≠ 0) (r : ProgressReport) :
    (∃ out c', c.report r = .ok (out, c')) ↔ ∀ s, c.sample r = some s →
      ∃ t ∈ c.delivered ++ [s], r.tMs.toNat ≤ sampleMs t + 2500 ∧ sampleMs t + 2500 < 2 ^ 64 := by
  have hexpire : ∀ s, c.sample r = some s → ((∃ ds, expire r.tMs (c.delivered ++ [s]) = .ok ds) ↔
      ∃ t ∈ c.delivered ++ [s], r.tMs.toNat ≤ sampleMs t + 2500 ∧ sampleMs t + 2500 < 2 ^ 64) := by
    intro s hs
    have hspaced : Spaced sampleMs 50 (c.delivered ++ [s]) := by
      obtain ⟨now, -, -, hkept⟩ := hw.kept
      rw [hkept]
      exact List.Pairwise.sublist (List.filter_sublist.append_right [s]) (hw.spaced_push hs)
    refine expire_ok_iff hspaced ⟨s, by simp, ?_⟩
    rw [sampleMs, (sample_eq_some hs).1]
    omega
  constructor
  · rintro ⟨out, c', h⟩ s hs
    obtain ⟨e, ht⟩ := report_takes h
    rcases ht.window with ⟨hnone, -⟩ | ⟨s', hs', hds, -⟩
    · cases hs.symm.trans hnone
    · cases hs.symm.trans hs'
      exact (hexpire s hs).mp ⟨_, hds⟩
  · intro h
    refine (report_ok_or hseg r).resolve_right ?_
    rintro ⟨-, σ, hsig, happ, hds⟩
    have hs : c.sample r = some (r.tMs, σ.delivered) := by
      rw [sample, hsig, Option.bind_some, if_neg (not_lt.mpr happ)]
    obtain ⟨ds, hok⟩ := (hexpire _ hs).mpr (h _ hs)
    cases hds.symm.trans hok

/-- What a report that adds a sample leaves in the window, and its maximum. -/
theorem pushed_spec {out : Option ℚ} (hw : WindowInv recorded c) (hs : c.sample r = some s)
    (h : c.report r = .ok (out, c')) :
    (∀ t ∈ c'.delivered, sampleMs t ≤ r.tMs.toNat ∧ r.tMs.toNat ≤ sampleMs t + 2500) ∧
    c'.delivered.length ≤ 51 ∧
    IsGreatest {d | ∃ t ∈ recorded ++ [s], r.tMs.toNat ≤ sampleMs t + 2500 ∧ t.2 = d}
      (maxDelivered c'.delivered) := by
  obtain ⟨-, hds⟩ := hw.pushed hs h
  have hmem : ∀ t, t ∈ c'.delivered ↔ t ∈ recorded ++ [s] ∧ r.tMs.toNat ≤ sampleMs t + 2500 := by
    intro t
    rw [hds, List.mem_filter, fresh_iff]
  have hnear : ∀ t ∈ c'.delivered, sampleMs t ≤ r.tMs.toNat ∧ r.tMs.toNat ≤ sampleMs t + 2500 :=
    fun t ht => ⟨hw.le_pushed hs t ((hmem t).mp ht).1, ((hmem t).mp ht).2⟩
  have hspaced : Spaced sampleMs 50 c'.delivered := (hw.step h).spaced_delivered
  have hlen : c'.delivered.length ≤ 2500 / 50 + 1 := by
    refine hspaced.length_le (by decide) fun a ha b hb => ?_
    have := (hnear a ha).2
    have := (hnear b hb).1
    omega
  have hne : c'.delivered ≠ [] := by
    refine List.ne_nil_of_mem ((hmem s).mpr ⟨by simp, ?_⟩)
    rw [sampleMs, (sample_eq_some hs).1]
    omega
  refine ⟨hnear, hlen, ?_⟩
  have hmax : IsGreatest {d | ∃ t ∈ c'.delivered, t.2 = d} (maxDelivered c'.delivered) :=
    isGreatest_foldl_max hne fun t ht => hw.nonneg_push hs t ((hmem t).mp ht).1
  simpa only [hmem, and_assoc] using hmax

end WindowInv

end RateController

/-! ## Runs -/

open RateController

variable {c : RateController} {calls : List Call}

/-- The samples the calls of a run recorded. -/
def samples (calls : List Call) : List (UInt64 × ℚ) :=
  calls.filterMap fun l => l.before.sample l.report

theorem windowInv_of_trace {seg : Nat} {maxRateMbps : ℚ}
    (h : Runs.Trace Called (.new seg maxRateMbps) calls c) : WindowInv (samples calls) c := by
  refine h.history (fun ls c => WindowInv (samples ls) c) (windowInv_new seg maxRateMbps) ?_
  rintro ls _ l _ hw ⟨rfl, rfl, hr⟩
  rw [samples, Runs.filterMap_concat]
  exact hw.step hr

/-- Reports before the end of the clock return. -/
theorem trace_of_reports {rs : List ProgressReport} (hrs : ∀ r ∈ rs, r.tMs.toNat + 2500 < 2 ^ 64)
    (hseg : c.seg ≠ 0) {recorded : List (UInt64 × ℚ)} (hw : WindowInv recorded c) :
    ∃ calls c', Runs.Trace Called c calls c' ∧ calls.map (·.report) = rs := by
  refine Runs.Trace.exists_of_inputs Call.report
    (fun c => c.seg ≠ 0 ∧ ∃ recorded, WindowInv recorded c) ?_ ⟨hseg, recorded, hw⟩ hrs
  rintro c r ⟨hseg, recorded, hw⟩ hr
  obtain ⟨out, c', hreport⟩ := (hw.report_ok_iff hseg r).mpr fun s hs => by
    have htime : sampleMs s = r.tMs.toNat := by rw [sampleMs, (sample_eq_some hs).1]
    exact ⟨s, by simp, by omega, by rw [htime]; exact hr⟩
  obtain ⟨e, ht⟩ := report_takes hreport
  exact ⟨⟨c, r, out, c'⟩, c', rfl, ⟨rfl, rfl, hreport⟩, by rwa [ht.seg], _, hw.step hreport⟩

/-- **The windowed maximum is exact.** For any reports at times at most
`u64::MAX - 2500`, whatever their order, no call panics, and after each call the
times in the window increase by 50 ms at least. A call that records a sample
leaves no sample in the window that is further back than 2.5 s from it, nor more
than 51, and the maximum it computes is that of all samples recorded so far that
are not further back. -/
theorem delivered_window_exact (seg : Nat) (hseg : 0 < seg) (maxRateMbps : ℚ)
    (rs : List ProgressReport) (hrs : ∀ r ∈ rs, r.tMs.toNat ≤ 2 ^ 64 - 1 - 2500) :
    ∃ calls c, Runs.Trace Called (.new seg maxRateMbps) calls c ∧ calls.map (·.report) = rs ∧
    ∀ pre l post, calls = pre ++ l :: post →
      l.after.delivered.Pairwise (fun a b => a.1.toNat + 50 ≤ b.1.toNat) ∧
      ∀ s, l.before.sample l.report = some s →
        (∀ t ∈ l.after.delivered, t.1 ≤ s.1 ∧ s.1.toNat ≤ t.1.toNat + 2500) ∧
        l.after.delivered.length ≤ 51 ∧
        IsGreatest {d | ∃ t ∈ samples (pre ++ [l]), l.report.tMs.toNat ≤ t.1.toNat + 2500 ∧ t.2 = d}
          (maxDelivered l.after.delivered) := by
  have hbound : ∀ r ∈ rs, r.tMs.toNat + 2500 < 2 ^ 64 := fun r hr => by
    have := hrs r hr
    omega
  obtain ⟨calls, c, htrace, hmap⟩ :=
    trace_of_reports hbound (Nat.ne_of_gt hseg) (windowInv_new seg maxRateMbps)
  refine ⟨calls, c, htrace, hmap, ?_⟩
  rintro pre l post rfl
  obtain ⟨u, hpre, hpost⟩ := htrace.split
  have hw : WindowInv (samples pre) u := windowInv_of_trace hpre
  cases hpost with
  | cons hst _ =>
    obtain ⟨rfl, rfl, hr⟩ := hst
    refine ⟨(hw.step hr).spaced_delivered, fun s hs => ?_⟩
    obtain ⟨hnear, hlen, hmax⟩ := hw.pushed_spec hs hr
    have htime := (sample_eq_some hs).1
    have hsamples : samples (pre ++ [l]) = samples pre ++ [s] := by
      simp [samples, hs]
    rw [hsamples]
    refine ⟨fun t ht => ?_, hlen, hmax⟩
    rw [htime, UInt64.le_iff_toNat_le]
    exact hnear t ht

/-- Four reports, and the three samples they leave in the window. -/
def windowReports : List ProgressReport :=
  [⟨0, some 0, 0, 0⟩, ⟨1000, some 1000, 1250000, 100⟩, ⟨2900, some 3000, 3750000, 200⟩,
    ⟨4200, some 4400, 8750000, 300⟩]

def windowSamples : List (UInt64 × ℚ) := [(100, 12240000), (200, 23256000), (300, 15912000)]

theorem windowReports_run : ∃ c₁ c₂ c₃ c₄ out₁ out₂ out₃ out₄,
    (new 1224 5000).report ⟨0, some 0, 0, 0⟩ = .ok (out₁, c₁) ∧
    c₁.report ⟨1000, some 1000, 1250000, 100⟩ = .ok (out₂, c₂) ∧
    c₂.report ⟨2900, some 3000, 3750000, 200⟩ = .ok (out₃, c₃) ∧
    c₃.report ⟨4200, some 4400, 8750000, 300⟩ = .ok (out₄, c₄) ∧
    c₃.sample ⟨4200, some 4400, 8750000, 300⟩ = some (300, 15912000) ∧
    c₄.delivered = windowSamples := by
  have h : (do
      let (_, c₁) ← (new 1224 5000).report ⟨0, some 0, 0, 0⟩
      let (_, c₂) ← c₁.report ⟨1000, some 1000, 1250000, 100⟩
      let (_, c₃) ← c₂.report ⟨2900, some 3000, 3750000, 200⟩
      let (_, c₄) ← c₃.report ⟨4200, some 4400, 8750000, 300⟩
      return decide (c₃.sample ⟨4200, some 4400, 8750000, 300⟩ = some (300, 15912000) ∧
        c₄.delivered = windowSamples)) = (.ok true : Checked Bool) := by decide +kernel
  simp only [Checked.bind_eq_ok, Checked.pure_eq_ok, decide_eq_true_eq, Prod.exists] at h
  obtain ⟨out₁, c₁, h₁, out₂, c₂, h₂, out₃, c₃, h₃, out₄, c₄, h₄, h⟩ := h
  exact ⟨c₁, c₂, c₃, c₄, out₁, out₂, out₃, out₄, h₁, h₂, h₃, h₄, h⟩

theorem called_cons {c c₁ c' : RateController} {out : Option ℚ} {r : ProgressReport}
    {rs : List ProgressReport} {calls : List Call} (h : Runs.Trace Called c calls c')
    (hmap : calls.map (·.report) = r :: rs) (hr : c.report r = .ok (out, c₁)) :
    ∃ calls', calls = ⟨c, r, out, c₁⟩ :: calls' ∧ Runs.Trace Called c₁ calls' c' ∧
      calls'.map (·.report) = rs := by
  cases h with
  | nil => cases hmap
  | @cons _ _ _ l _ hst h =>
    obtain ⟨before, report, out', after⟩ := l
    obtain ⟨rfl, rfl, hr'⟩ := hst
    cases hmap
    cases hr.symm.trans hr'
    exact ⟨_, rfl, h, rfl⟩

/-- The largest of three samples in the window is neither the first nor the last. -/
theorem delivered_window_three : ∃ calls c, Runs.Trace Called (.new 1224 5000) calls c ∧
    calls.map (·.report) = windowReports ∧ c.delivered = windowSamples ∧
    maxDelivered c.delivered = 23256000 ∧
    IsGreatest {d | ∃ t ∈ samples calls, 300 ≤ t.1.toNat + 2500 ∧ t.2 = d}
      (maxDelivered c.delivered) := by
  obtain ⟨calls, c, htrace, hmap, hall⟩ := delivered_window_exact 1224 (by decide) 5000
    windowReports (by decide)
  obtain ⟨c₁, c₂, c₃, c₄, _, _, _, _, h₁, h₂, h₃, h₄, hs, hd⟩ := windowReports_run
  have htrace' := htrace
  have hmap' := hmap
  obtain ⟨_, rfl, htrace', hmap'⟩ := called_cons htrace' hmap' h₁
  obtain ⟨_, rfl, htrace', hmap'⟩ := called_cons htrace' hmap' h₂
  obtain ⟨_, rfl, htrace', hmap'⟩ := called_cons htrace' hmap' h₃
  obtain ⟨_, rfl, htrace', hmap'⟩ := called_cons htrace' hmap' h₄
  obtain rfl := List.map_eq_nil_iff.mp hmap'
  cases htrace'
  have hlast := (hall [_, _, _] _ [] rfl).2 _ hs
  refine ⟨_, _, htrace, hmap, hd, ?_, hlast.2.2⟩
  rw [hd]
  decide +kernel

end AtpExperiment
