/-
The loss estimate and the size of repair (`LossEstimator`, `transfer`).

An update either takes the interval since the snapshot kept as a sample, or
merges the report into the next (`interval`, `update_eq`). The snapshot moves
only with a sample, so the intervals of a run are consecutive
(`Spans.Consecutive`): what is merged away is pending, fewer than 50 packets, and
no packet is counted twice. The estimate is an average of clamped samples, and
the size of a turn's repair a clamped fraction of its block
(`loss_accounting`).
-/
import AtpExperiment.Lib.Spans
import AtpExperiment.SendFacts

namespace AtpExperiment

open Spans

/-! ## The size of a turn's repair -/

theorem toNat_atLeast (least : UInt32) {k : Nat} {frac most : ℚ} (hfrac : frac ≤ most) :
    let n := if ceilU32 (k * frac) < least then least else ceilU32 (k * frac)
    least.toNat ≤ n.toNat ∧ n.toNat ≤ max least.toNat ⌈most * k⌉.toNat := by
  have hceil : (ceilU32 (k * frac)).toNat ≤ ⌈most * k⌉.toNat := by
    refine (toNat_ceilU32_le _).trans (Int.toNat_le_toNat (Int.ceil_le_ceil ?_))
    rw [mul_comm]
    exact mul_le_mul_of_nonneg_right hfrac (Nat.cast_nonneg k)
  simp only []
  split
  · omega
  · next hlt =>
    have := UInt32.le_iff_toNat_le.mp (UInt32.not_lt.mp hlt)
    omega

/-- The number of repair symbols is always there, and bounded by the round's
fraction of the block. -/
theorem Spray.repairCount_sized {rq : Raptorq} (v : Spray rq) (cfg : SendCfg) (k : Nat) :
    ∃ n, v.repairCount cfg k = .ok n ∧
      (v.round = 0 → 2 ≤ n.toNat ∧ n.toNat ≤ max 2 ⌈(8 / 10 : ℚ) * k⌉.toNat) ∧
      (v.round ≠ 0 → 8 ≤ n.toNat ∧ n.toNat ≤ max 8 ⌈(16 / 10 : ℚ) * k⌉.toNat) := by
  by_cases hround : v.round = 0
  · have hfrac : clamp (max (cfg.overhead / 100)
        (if v.loss.primed then v.loss.ewma * (3 / 2) + 2 / 100 else 0)) 0 (8 / 10) = .ok _ :=
      clamp_ok (by norm_num)
    simp only [repairCount, if_pos hround, LossEstimator.round0Frac, hfrac, Checked.ok_bind]
    exact ⟨_, rfl, fun _ => toNat_atLeast 2 (clamp_mem hfrac).2, fun h => absurd hround h⟩
  · have hbase : clamp (if v.loss.primed then v.loss.ewma * (3 / 2) else 0) (5 / 100) (8 / 10) =
        .ok _ := clamp_ok (by norm_num)
    simp only [repairCount, if_neg hround, LossEstimator.repairFrac, hbase, Checked.ok_bind]
    refine ⟨_, rfl, fun h => absurd h hround, fun _ => toNat_atLeast 8 ?_⟩
    -- The fraction is doubled at most: the round counts up to four.
    have hmin : ((min v.round.toNat 4 : Nat) : ℚ) ≤ 4 := by exact_mod_cast Nat.min_le_right _ _
    have hnonneg : (0 : ℚ) ≤ ((min v.round.toNat 4 : Nat) : ℚ) := Nat.cast_nonneg _
    have hle := (clamp_mem hbase).2
    have hpos := (clamp_mem hbase).1
    nlinarith

/-! ## An update -/

/-- Packets received and sent, as a report has them. -/
abbrev Counts := UInt64 × UInt64

/-- The loss over an interval, as a sample has it. -/
def lossOver (i : Counts × Counts) : ℚ :=
  max 0 (min (1 - ((i.2.1.toNat - i.1.1.toNat : Nat) : ℚ) / ((i.2.2.toNat - i.1.2.toNat : Nat) : ℚ))
    (9 / 10))

namespace LossEstimator

/-- The interval an update takes as a sample: since the snapshot kept, or since
the start of the transfer at the first report. -/
def interval (e : LossEstimator) (u : Counts) : Option (Counts × Counts) :=
  match e.last with
  | none => if 0 < u.2 then some ((0, 0), u) else none
  | some p => if u.2.toNat - p.2.toNat < 50 then none else some (p, u)

/-- The snapshot kept, or the start of the transfer. -/
def snapshot (e : LossEstimator) : Counts := e.last.getD (0, 0)

/-- The estimate after an update: the first sample is taken as it is. -/
def smoothed (e : LossEstimator) (u : Counts) : ℚ :=
  match e.interval u with
  | none => e.ewma
  | some i =>
    if e.primed && e.last.isSome then 7 / 10 * e.ewma + 3 / 10 * lossOver i else lossOver i

variable {e e' : LossEstimator} {u : Counts} {i : Counts × Counts}

/-- An interval is from the snapshot to the report, and after the first report
it is long enough. -/
theorem interval_eq_some (h : e.interval u = some i) :
    i = (e.snapshot, u) ∧ (e.last ≠ none → e.snapshot.2.toNat + 50 ≤ u.2.toNat) := by
  unfold interval at h
  unfold snapshot
  cases hlast : e.last with
  | none =>
    simp only [hlast] at h
    split at h
    · exact ⟨(Option.some.inj h).symm, fun hne => absurd rfl hne⟩
    · cases h
  | some p =>
    simp only [hlast] at h
    split at h
    · cases h
    · refine ⟨(Option.some.inj h).symm, fun _ => ?_⟩
      rw [Option.getD_some]
      omega

theorem interval_eq_none (h : e.interval u = none) :
    u.2.toNat < e.snapshot.2.toNat + 50 ∧ (e.last = none → u.2 = 0) := by
  unfold interval at h
  unfold snapshot
  cases hlast : e.last with
  | none =>
    simp only [hlast] at h
    split at h
    · cases h
    · next hpos =>
      have hzero : u.2 = 0 := not_not.mp (mt UInt64.pos_iff_ne_zero.mpr hpos)
      rw [hzero]
      exact ⟨by decide, fun _ => rfl⟩
  | some p =>
    simp only [hlast] at h
    split at h
    · rw [Option.getD_some]
      exact ⟨by omega, fun hnone => by cases hnone⟩
    · cases h

/-- What an update does. -/
theorem update_eq (e : LossEstimator) (u : Counts) :
    e.update u.1 u.2 = .ok (match e.interval u with
      | none => { e with last := some (e.last.getD u) }
      | some _ => ⟨e.smoothed u, true, some u⟩) := by
  have hclamp : ∀ x, clamp x 0 (9 / 10) = .ok (max 0 (min x (9 / 10))) :=
    fun x => clamp_ok (by norm_num)
  obtain ⟨ewma, primed, _ | p⟩ := e
  · simp only [update, smoothed, interval, hclamp, Checked.ok_bind]
    split
    · simp [lossOver]; rfl
    · rfl
  · simp only [update, smoothed, interval, hclamp, Checked.ok_bind]
    split
    · rfl
    · simp [lossOver]; rfl

theorem update_ok (e : LossEstimator) (received sent : UInt64) :
    ∃ e', e.update received sent = .ok e' := ⟨_, e.update_eq (received, sent)⟩

theorem lossOver_mem (i : Counts × Counts) : 0 ≤ lossOver i ∧ lossOver i ≤ 9 / 10 :=
  ⟨le_max_left _ _, max_le (by norm_num) (min_le_right _ _)⟩

theorem smoothed_mem (h : 0 ≤ e.ewma ∧ e.ewma ≤ 9 / 10) (u : Counts) :
    0 ≤ e.smoothed u ∧ e.smoothed u ≤ 9 / 10 := by
  unfold smoothed
  split
  · exact h
  · next i _ =>
    have hi := lossOver_mem i
    split
    · constructor <;> linarith
    · exact hi

end LossEstimator

/-! ## A run of updates -/

open LossEstimator

/-- A call of `update`, with the estimator before and after. -/
structure LossUpdate where
  before : LossEstimator
  counts : Counts
  after : LossEstimator

/-- The step of a run: a call that returned. -/
def Updated (e : LossEstimator) (l : LossUpdate) (e' : LossEstimator) : Prop :=
  l.before = e ∧ l.after = e' ∧ e.update l.counts.1 l.counts.2 = .ok e'

/-- The intervals the calls of a run took as samples. -/
def intervals (ls : List LossUpdate) : List (Counts × Counts) :=
  ls.filterMap fun l => l.before.interval l.counts

/-- Neither count goes back from report to report. -/
def NonDecreasing (us : List Counts) : Prop := us.Pairwise fun a b => a.1 ≤ b.1 ∧ a.2 ≤ b.2

variable {e e' : LossEstimator} {u : Counts} {us : List Counts} {is : List (Counts × Counts)}

/-- The intervals behind the samples are consecutive up to the snapshot kept,
and the newest report is less than 50 packets ahead of it. They begin with the
transfer, or with a first report of nothing sent. -/
structure LossInv (us : List Counts) (is : List (Counts × Counts)) (e : LossEstimator) : Prop where
  ewma : 0 ≤ e.ewma ∧ e.ewma ≤ 9 / 10
  first : e.last = none → us = [] ∧ is = []
  kept : ∀ p, e.last = some p → p ∈ us
  chain : ∃ start, (start = (0, 0) ∨ start.2 = 0 ∧ us.head? = some start) ∧
    Consecutive start is e.snapshot
  newest : ∀ u, us.getLast? = some u → u.2.toNat < e.snapshot.2.toNat + 50 ∧
    (NonDecreasing us → e.snapshot.2 ≤ u.2)
  forward : NonDecreasing us → ∀ i ∈ is, i.1.1 ≤ i.2.1 ∧ i.1.2 ≤ i.2.2

theorem lossInv_new : LossInv [] [] .new where
  ewma := ⟨le_rfl, by norm_num [LossEstimator.new]⟩
  first _ := ⟨rfl, rfl⟩
  kept _ hp := by cases hp
  chain := ⟨(0, 0), .inl rfl, .nil⟩
  newest _ hu := by cases hu
  forward _ _ hi := by cases hi

namespace LossInv

theorem snapshot_le (h : LossInv us is e) (hus : NonDecreasing (us ++ [u])) :
    e.snapshot.1 ≤ u.1 ∧ e.snapshot.2 ≤ u.2 := by
  unfold snapshot
  cases hlast : e.last with
  | none => exact ⟨UInt64.zero_le, UInt64.zero_le⟩
  | some p =>
    exact (List.pairwise_append.mp hus).2.2 p (h.kept p hlast) u (List.mem_singleton_self u)

theorem start_append {start : Counts} (u : Counts)
    (h : start = (0, 0) ∨ start.2 = 0 ∧ us.head? = some start) :
    start = (0, 0) ∨ start.2 = 0 ∧ (us ++ [u]).head? = some start := by
  refine h.imp_right fun ⟨hzero, hhead⟩ => ⟨hzero, ?_⟩
  rw [List.head?_append, hhead]
  rfl

theorem take (h : LossInv us is e) (u : Counts) :
    LossInv (us ++ [u]) (is ++ [(e.snapshot, u)]) ⟨e.smoothed u, true, some u⟩ where
  ewma := smoothed_mem h.ewma u
  first hnone := by cases hnone
  kept p hp := by
    cases hp
    exact List.mem_append_right _ (List.mem_singleton_self _)
  chain := by
    obtain ⟨start, hstart, hchain⟩ := h.chain
    exact ⟨start, start_append u hstart, hchain.snoc u⟩
  newest v hv := by
    rw [List.getLast?_append_of_ne_nil _ (List.cons_ne_nil u [])] at hv
    cases hv
    exact ⟨Nat.lt_add_of_pos_right (by decide), fun _ => UInt64.le_refl _⟩
  forward hus i hi := by
    rcases List.mem_append.mp hi with hi | hi
    · exact h.forward (List.pairwise_append.mp hus).1 i hi
    · rw [List.mem_singleton.mp hi]
      exact h.snapshot_le hus

theorem merge (h : LossInv us is e) (hi : e.interval u = none) :
    LossInv (us ++ [u]) is { e with last := some (e.last.getD u) } := by
  obtain ⟨hnear, hzero⟩ := interval_eq_none hi
  have hnewest : ∀ v, (us ++ [u]).getLast? = some v → v = u := fun v hv => by
    rw [List.getLast?_append_of_ne_nil _ (List.cons_ne_nil u [])] at hv
    cases hv
    rfl
  cases hlast : e.last with
  | none =>
    -- The first report, of nothing sent: the intervals will begin at it.
    obtain ⟨rfl, rfl⟩ := h.first hlast
    exact {
      ewma := h.ewma
      first := fun hnone => by cases hnone
      kept := fun p hp => by cases hp; exact List.mem_singleton_self _
      chain := ⟨u, .inr ⟨hzero hlast, rfl⟩, .nil⟩
      newest := fun v hv => by
        rw [hnewest v hv]
        exact ⟨Nat.lt_add_of_pos_right (by decide), fun _ => UInt64.le_refl _⟩
      forward := fun _ _ hi => by cases hi }
  | some p =>
    have hsame : { e with last := some ((some p).getD u) } = e := by
      rw [Option.getD_some, ← hlast]
    rw [hsame]
    exact {
      ewma := h.ewma
      first := fun hnone => by cases hlast.symm.trans hnone
      kept := fun q hq => List.mem_append_left _ (h.kept q hq)
      chain := by
        obtain ⟨start, hstart, hchain⟩ := h.chain
        exact ⟨start, start_append u hstart, hchain⟩
      newest := fun v hv => by
        rw [hnewest v hv]
        exact ⟨hnear, fun hus => (h.snapshot_le hus).2⟩
      forward := fun hus => h.forward (List.pairwise_append.mp hus).1 }

theorem step (h : LossInv us is e) (hu : e.update u.1 u.2 = .ok e') :
    LossInv (us ++ [u]) (is ++ (e.interval u).toList) e' := by
  rw [e.update_eq u] at hu
  cases hi : e.interval u with
  | none =>
    rw [hi] at hu
    cases hu
    rw [Option.toList_none, List.append_nil]
    exact h.merge hi
  | some i =>
    obtain ⟨rfl, -⟩ := interval_eq_some hi
    rw [hi] at hu
    cases hu
    exact h.take u

end LossInv

theorem lossInv_of_trace {ls : List LossUpdate} (h : Runs.Trace Updated .new ls e) :
    LossInv (ls.map (·.counts)) (intervals ls) e := by
  refine h.history (fun ls e => LossInv (ls.map (·.counts)) (intervals ls) e) lossInv_new ?_
  rintro ls _ l _ hinv ⟨rfl, rfl, hu⟩
  rw [List.map_append, intervals, Runs.filterMap_concat]
  exact hinv.step hu

/-- Every list of reports is a run. -/
theorem trace_of_counts (e : LossEstimator) (us : List Counts) :
    ∃ ls e', Runs.Trace Updated e ls e' ∧ ls.map (·.counts) = us := by
  refine Runs.Trace.exists_of_inputs _ (fun _ => True) (fun e u _ _ => ?_) trivial
    (P := fun _ => True) fun _ _ => trivial
  obtain ⟨e', hu⟩ := e.update_ok u.1 u.2
  exact ⟨⟨e, u, e'⟩, e', rfl, ⟨rfl, rfl, hu⟩, trivial⟩

/-- What a call did with its report: it moved the estimate by the sample of its
interval, if it took one. -/
theorem updated_smoothed {l : LossUpdate} (h : Updated e l e') :
    l.after.ewma = l.before.smoothed l.counts := by
  obtain ⟨rfl, rfl, hu⟩ := h
  rw [l.before.update_eq l.counts] at hu
  cases hi : l.before.interval l.counts with
  | none =>
    rw [hi] at hu
    rw [← Except.ok.inj hu, smoothed, hi]
  | some i =>
    rw [hi] at hu
    rw [← Except.ok.inj hu]

/-- **What the loss estimate counts, and the size of repair.** Any reports can be
taken, and leave the estimate between 0 and 0.9; a call that takes an interval as
a sample moves the estimate by the loss over it, and any other leaves it. For
reports that do not go back the intervals are consecutive and run forward, each
after the first report over 50 packets sent at least. So a packet sent before the
snapshot kept is in one of them, and any other in none; likewise for packets
received. What is sent after the snapshot is pending, fewer than 50 packets of the
newest report. Repair is between 2 symbols and eight tenths of the block in round
0, and between 8 and sixteen tenths later. -/
theorem loss_accounting (us : List Counts) : ∃ ls e,
    Runs.Trace Updated .new ls e ∧ ls.map (·.counts) = us ∧
    (0 ≤ e.ewma ∧ e.ewma ≤ 9 / 10) ∧
    (∀ l ∈ ls, l.after.ewma = match l.before.interval l.counts with
      | none => l.before.ewma
      | some i => if l.before.primed && l.before.last.isSome then
          7 / 10 * l.before.ewma + 3 / 10 * lossOver i else lossOver i) ∧
    (NonDecreasing us → ∃ start, (start = (0, 0) ∨ start.2 = 0 ∧ us.head? = some start) ∧
      Consecutive start (intervals ls) e.snapshot ∧
      (∀ i ∈ intervals ls, i.1.1 ≤ i.2.1 ∧ i.1.2 ≤ i.2.2) ∧
      (∀ l ∈ ls, l.before.last ≠ none → ∀ i, l.before.interval l.counts = some i →
        i.1.2.toNat + 50 ≤ i.2.2.toNat) ∧
      (∀ n, (intervals ls).countP (fun i => i.1.2.toNat ≤ n ∧ n < i.2.2.toNat) =
        if n < e.snapshot.2.toNat then 1 else 0) ∧
      (∀ n, (intervals ls).countP (fun i => i.1.1.toNat ≤ n ∧ n < i.2.1.toNat) =
        if start.1.toNat ≤ n ∧ n < e.snapshot.1.toNat then 1 else 0) ∧
      ∀ u, us.getLast? = some u → e.snapshot.2 ≤ u.2 ∧ u.2.toNat < e.snapshot.2.toNat + 50) ∧
    ∀ (rq : Raptorq) (cfg : SendCfg) (v : Spray rq) (k : Nat), ∃ n, v.repairCount cfg k = .ok n ∧
      (v.round = 0 → 2 ≤ n.toNat ∧ n.toNat ≤ max 2 ⌈(8 / 10 : ℚ) * k⌉.toNat) ∧
      (v.round ≠ 0 → 8 ≤ n.toNat ∧ n.toNat ≤ max 8 ⌈(16 / 10 : ℚ) * k⌉.toNat) := by
  obtain ⟨ls, e, htrace, rfl⟩ := trace_of_counts .new us
  have hinv := lossInv_of_trace htrace
  refine ⟨ls, e, htrace, rfl, hinv.ewma, ?_, fun hus => ?_, fun rq cfg v k =>
    v.repairCount_sized cfg k⟩
  · exact htrace.forall_mem (fun _ => True) trivial (fun _ _ _ _ _ => trivial)
      fun _ _ _ _ hst => updated_smoothed hst
  obtain ⟨start, hstart, hchain⟩ := hinv.chain
  have hforward := hinv.forward hus
  have hzero : start.2 = 0 := hstart.elim (fun h => by rw [h]) (·.1)
  refine ⟨start, hstart, hchain, hforward, fun l _ hlast i hi => ?_, fun n => ?_, fun n => ?_,
    fun u hu => (hinv.newest u hu).symm.imp_left fun h => h hus⟩
  · obtain ⟨rfl, hlong⟩ := interval_eq_some hi
    exact hlong hlast
  · have hcount := hchain.countP_eq (fun c => c.2.toNat)
      (fun i hi => UInt64.le_iff_toNat_le.mp (hforward i hi).2) n
    simpa [hzero] using hcount
  · exact hchain.countP_eq (fun c => c.1.toNat)
      (fun i hi => UInt64.le_iff_toNat_le.mp (hforward i hi).1) n

end AtpExperiment
