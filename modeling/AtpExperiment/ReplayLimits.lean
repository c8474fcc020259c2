/-
The replay window at the end of `u64`.

An authenticated sequence number is otherwise unchecked, so a window can be
offered `u64::MAX`. A commit adds one to its number wherever it clears less
than the whole bitmap, and `seq_span` adds one to the highest number. With
overflow checks the first addition panics on `u64::MAX`; without them the
clearing loop, whose guard is then always true, never ends. `commit_total_iff`
says exactly when neither happens.
-/
import AtpExperiment.Lib.Runs
import AtpExperiment.ReplayFacts

namespace AtpExperiment.ReplayWindow

/-! ## Reachable windows -/

/-- Windows that come from a new one by commits, each after a positive
`would_accept`. -/
def Reachable : ReplayWindow → Prop :=
  Runs.Reachable (· = new) fun w w' => ∃ s, w.wouldAccept s = true ∧ w.commit s = .ok w'

variable {w w' : ReplayWindow} {acc : List UInt64} {s : UInt64}

theorem eq_max_of_not_lt (h : ¬ s < u64Max) : s = u64Max := by
  rw [lt_max_iff] at h
  have hmax : u64Max.toNat = 2 ^ 64 - 1 := rfl
  have := s.toNat_lt
  exact UInt64.toNat.inj (by omega)

theorem addU64_max : Checked.addU64 u64Max 1 = .error .overflow := by decide

/-- An accepted number that does not fit is `u64::MAX`, first or as a short advance. -/
theorem Holds.commit_overflow (h : Holds w acc) (ha : w.wouldAccept s = true)
    (hfits : ¬ w.Fits s) : w.commit s = .error .overflow := by
  rw [Fits, not_or, not_and] at hfits
  obtain ⟨hmax, hfar⟩ := hfits
  obtain rfl := eq_max_of_not_lt hmax
  cases hp : w.primed with
  | false =>
    simp only [ReplayWindow.commit, hp, addU64_max]
    rfl
  | true =>
    have hlt : w.highest < u64Max := by
      by_contra hge
      -- `u64::MAX` is already in the window, so it is not accepted.
      rcases h with ⟨hp', -⟩ | ⟨-, hmem, hr⟩
      · rw [hp] at hp'
        cases hp'
      · rw [eq_max_of_not_lt hge] at hmem
        have := Holds.not_wouldAccept (.inr ⟨hp, by rwa [eq_max_of_not_lt hge], hr⟩) hmem
        rw [ha] at this
        cases this
    have hshort : ¬ replayWindowBits ≤ Checked.minU64 (u64Max - w.highest) replayWindowBits := by
      have hsub := UInt64.toNat_sub_of_le _ _ (UInt64.le_of_lt hlt)
      have := hfar hp
      have := lt_max_iff.mp hlt
      rw [UInt64.le_iff_toNat_le, Checked.toNat_minU64, hsub, toNat_bits]
      omega
    simp only [ReplayWindow.commit, hp, hlt, clearRangeForAdvance, if_neg hshort, addU64_max]
    rfl

theorem Holds.commit_ok_iff (h : Holds w acc) (ha : w.wouldAccept s = true) :
    (∃ w', w.commit s = .ok w') ↔ w.Fits s := by
  constructor
  · rintro ⟨w', hw'⟩
    by_contra hfits
    rw [h.commit_overflow ha hfits] at hw'
    cases hw'
  · intro hfits
    obtain ⟨w', hw', -⟩ := h.commit hfits ha
    exact ⟨w', hw'⟩

theorem Reachable.holds (h : Reachable w) : ∃ acc, Holds w acc := by
  refine Runs.Reachable.invariant h (fun w => ∃ acc, Holds w acc) ?_ ?_
  · rintro w rfl
    exact ⟨[], holds_new⟩
  · rintro w w' ⟨acc, hacc⟩ ⟨s, ha, hcom⟩
    obtain ⟨w'', hw'', hh⟩ := hacc.commit ((hacc.commit_ok_iff ha).mp ⟨w', hcom⟩) ha
    cases hcom.symm.trans hw''
    exact ⟨acc ++ [s], hh⟩

/-! ## Wrapping arithmetic -/

/-- The clearing loop of a build without overflow checks, for at most `fuel`
rounds. -/
def clearLoopWrapping : Nat → ReplayWindow → UInt64 → UInt64 → Option ReplayWindow
  | 0, _, _, _ => none
  | fuel + 1, w, cursor, newHighest =>
    if cursor ≤ newHighest then clearLoopWrapping fuel (w.clear cursor) (cursor + 1) newHighest
    else some w

/-- `clear_range_for_advance` of a build without overflow checks. -/
def clearRangeWrapping (fuel : Nat) (w : ReplayWindow) (newHighest advance : UInt64) :
    Option ReplayWindow :=
  if replayWindowBits ≤ advance then
    some { w with bitmap := Vector.replicate replayWindowWords 0 }
  else clearLoopWrapping fuel w (newHighest + 1 - advance) newHighest

/-- `commit` of a build without overflow checks; `none` is no result within
`fuel` rounds of the clearing loop. -/
def commitWrapping (fuel : Nat) (w : ReplayWindow) (seq : UInt64) : Option ReplayWindow :=
  if !w.primed then do
    let w ← clearRangeWrapping fuel { w with primed := true, highest := seq } seq
      (Checked.minU64 replayWindowBits (seq + 1))
    return w.set seq
  else if w.highest < seq then do
    let w ← clearRangeWrapping fuel w seq (Checked.minU64 (seq - w.highest) replayWindowBits)
    return ({ w with highest := seq } : ReplayWindow).set seq
  else return w.set seq

theorem clearLoopWrapping_max (fuel : Nat) (w : ReplayWindow) (cursor : UInt64) :
    clearLoopWrapping fuel w cursor u64Max = none := by
  induction fuel generalizing w cursor with
  | zero => rfl
  | succ fuel ih =>
    have hle : cursor ≤ u64Max := by
      rw [UInt64.le_iff_toNat_le]
      exact Nat.le_of_lt_succ cursor.toNat_lt
    rw [clearLoopWrapping, if_pos hle]
    exact ih _ _

/-- The loop ends without overflow checks where it does with them. -/
theorem clearLoop_eq_ok_iff (w w' : ReplayWindow) (cursor newHighest : UInt64) :
    clearLoop w cursor newHighest = .ok w' ↔
      ∃ fuel, clearLoopWrapping fuel w cursor newHighest = some w' := by
  fun_induction clearLoop w cursor newHighest with
  | case1 w cursor hle hlt ih =>
    rw [ih]
    constructor
    · rintro ⟨fuel, hf⟩
      exact ⟨fuel + 1, by rwa [clearLoopWrapping, if_pos hle]⟩
    · rintro ⟨fuel, hf⟩
      cases fuel with
      | zero => cases hf
      | succ fuel =>
        rw [clearLoopWrapping, if_pos hle] at hf
        exact ⟨fuel, hf⟩
  | case2 w cursor hle hge =>
    -- The cursor is `u64::MAX`, and so is the last number.
    have hcur : ¬ cursor < u64Max := fun hlt => hge (lt_max_iff.mp hlt)
    obtain rfl : newHighest = u64Max := by
      refine eq_max_of_not_lt fun hlt => hcur ?_
      rw [UInt64.lt_iff_toNat_lt] at hlt ⊢
      rw [UInt64.le_iff_toNat_le] at hle
      omega
    simp [clearLoopWrapping_max]
  | case3 w cursor hgt =>
    constructor
    · intro h
      cases h
      exact ⟨1, if_neg hgt⟩
    · rintro ⟨fuel, hf⟩
      cases fuel with
      | zero => cases hf
      | succ fuel =>
        rw [clearLoopWrapping, if_neg hgt] at hf
        cases hf
        rfl

theorem clearRangeForAdvance_eq_ok_iff {newHighest advance : UInt64}
    (hadv : advance.toNat ≤ newHighest.toNat + 1) :
    clearRangeForAdvance w newHighest advance = .ok w' ↔
      ∃ fuel, clearRangeWrapping fuel w newHighest advance = some w' := by
  unfold clearRangeForAdvance clearRangeWrapping
  by_cases hbig : replayWindowBits ≤ advance
  · simp [if_pos hbig]
  simp only [if_neg hbig]
  by_cases hmax : newHighest < u64Max
  · have hsucc := lt_max_iff.mp hmax
    have hle : advance ≤ newHighest + 1 := by
      rw [UInt64.le_iff_toNat_le, toNat_succ hsucc]
      exact hadv
    rw [Checked.addU64_of_lt hsucc, Checked.ok_bind, Checked.subU64_of_le hle, Checked.ok_bind]
    exact clearLoop_eq_ok_iff w w' _ newHighest
  · obtain rfl := eq_max_of_not_lt hmax
    simp only [addU64_max, clearLoopWrapping_max, Checked.bind_eq_ok]
    simp

theorem map_eq_ok_iff {x : Checked ReplayWindow} {y : Nat → Option ReplayWindow}
    (h : ∀ v, x = .ok v ↔ ∃ fuel, y fuel = some v) (f : ReplayWindow → ReplayWindow) :
    (x >>= fun v => pure (f v)) = .ok w' ↔
      ∃ fuel, ((y fuel).bind fun v => some (f v)) = some w' := by
  simp only [Checked.bind_eq_ok, Checked.pure_eq_ok, Option.bind_eq_some_iff, h, Option.some.injEq]
  constructor
  · rintro ⟨v, ⟨fuel, hv⟩, he⟩
    exact ⟨fuel, v, hv, he⟩
  · rintro ⟨fuel, v, hv, he⟩
    exact ⟨v, ⟨fuel, hv⟩, he⟩

/-- A commit has a result without overflow checks where it has one with them,
and the same one. -/
theorem commit_eq_ok_iff : w.commit s = .ok w' ↔ ∃ fuel, commitWrapping fuel w s = some w' := by
  unfold commit commitWrapping
  cases hp : w.primed with
  | false =>
    simp only [Bool.not_false, if_true]
    by_cases hmax : s < u64Max
    · have hsucc := lt_max_iff.mp hmax
      have hadv : (Checked.minU64 replayWindowBits (s + 1)).toNat ≤ s.toNat + 1 := by
        rw [Checked.toNat_minU64, toNat_succ hsucc]
        omega
      rw [Checked.addU64_of_lt (b := 1) hsucc, Checked.ok_bind]
      exact map_eq_ok_iff (fun v => clearRangeForAdvance_eq_ok_iff hadv) _
    · obtain rfl := eq_max_of_not_lt hmax
      have hzero : ¬ replayWindowBits ≤ Checked.minU64 replayWindowBits (u64Max + 1) := by decide
      simp only [addU64_max, Checked.bind_eq_ok, clearRangeWrapping, if_neg hzero,
        clearLoopWrapping_max]
      simp
  | true =>
    simp only [Bool.not_true, Bool.false_eq_true, if_false]
    split
    · next hlt =>
      have hadv : (Checked.minU64 (s - w.highest) replayWindowBits).toNat ≤ s.toNat + 1 := by
        rw [Checked.toNat_minU64, UInt64.toNat_sub_of_le _ _ (UInt64.le_of_lt hlt)]
        omega
      exact map_eq_ok_iff (fun v => clearRangeForAdvance_eq_ok_iff hadv) _
    · simp [pure, Except.pure]

theorem commitWrapping_eq_none {e : Panic} (h : w.commit s = .error e) (fuel : Nat) :
    commitWrapping fuel w s = none := by
  cases hw : commitWrapping fuel w s with
  | none => rfl
  | some w' =>
    rw [commit_eq_ok_iff.mpr ⟨fuel, hw⟩] at h
    cases h

/-! ## Totality -/

theorem seqSpan_ok_iff : (∃ q, w.seqSpan = .ok q) ↔ ¬ (w.primed = true ∧ w.highest = u64Max) := by
  unfold seqSpan
  cases hp : w.primed with
  | false => simp [pure, Except.pure]
  | true =>
    by_cases hmax : w.highest < u64Max
    · have hne : w.highest ≠ u64Max := UInt64.ne_of_lt hmax
      simp [Checked.addU64_of_lt (b := 1) (lt_max_iff.mp hmax), hne, pure, Except.pure]
    · simp [eq_max_of_not_lt hmax, addU64_max]

/-- **When the window's arithmetic is total.** In a reachable window, a commit
of a number `would_accept` accepts returns, without an overflow, exactly when
the number is below `u64::MAX` or 4096 or more ahead of the highest one; the
same condition decides whether it ends in a build without overflow checks.
`seq_span` returns unless the highest number is `u64::MAX`. -/
theorem commit_total_iff (h : Reachable w) (ha : w.wouldAccept s = true) :
    ((∃ w', w.commit s = .ok w') ↔ w.Fits s) ∧
    (w.commit s = .error .overflow ↔ ¬ w.Fits s) ∧
    ((∃ fuel w', w.commitWrapping fuel s = some w') ↔ w.Fits s) ∧
    ((∃ q, w.seqSpan = .ok q) ↔ ¬ (w.primed = true ∧ w.highest = u64Max)) := by
  obtain ⟨acc, hacc⟩ := h.holds
  have hok := hacc.commit_ok_iff ha
  refine ⟨hok, ⟨fun herr hfits => ?_, hacc.commit_overflow ha⟩, ?_, seqSpan_ok_iff⟩
  · obtain ⟨w', hw'⟩ := hok.mpr hfits
    rw [herr] at hw'
    cases hw'
  · rw [exists_comm, ← hok]
    exact exists_congr fun w' => commit_eq_ok_iff.symm

/-- The window of one number. -/
def single (s : UInt64) : ReplayWindow :=
  ({ new with primed := true, highest := s } : ReplayWindow).set s

/-- After 5000 the window advances to 5070, past a whole word of its bits. -/
theorem commit_total_advance : Reachable (single 5000) ∧ (single 5000).wouldAccept 5070 = true ∧
    (∃ w', (single 5000).commit 5070 = .ok w') ∧ ∃ q, (single 5000).seqSpan = .ok q := by
  have hreach : Reachable (single 5000) :=
    Runs.Reachable.next (.start rfl) ⟨5000, rfl, by decide +kernel⟩
  have hacc : (single 5000).wouldAccept 5070 = true := by decide +kernel
  have hfits : (single 5000).Fits 5070 := .inl (by decide)
  obtain ⟨hcommit, -, -, hspan⟩ := commit_total_iff hreach hacc
  refine ⟨hreach, hacc, hcommit.mpr hfits, hspan.mpr fun h => ?_⟩
  exact absurd h.2 (by decide)

/-- `u64::MAX` as the first number, and as an advance by one: with overflow
checks the commit panics, without them it does not end. After a jump to it the
commit returns, and the span panics. -/
theorem commit_max_overflows :
    (new.wouldAccept u64Max = true ∧ new.commit u64Max = .error .overflow ∧
      ∀ fuel, new.commitWrapping fuel u64Max = none) ∧
    (new.commit (u64Max - 1) = .ok (single (u64Max - 1)) ∧
      (single (u64Max - 1)).wouldAccept u64Max = true ∧
      (single (u64Max - 1)).commit u64Max = .error .overflow ∧
      ∀ fuel, (single (u64Max - 1)).commitWrapping fuel u64Max = none) ∧
    new.commit 5000 = .ok (single 5000) ∧ (single 5000).wouldAccept u64Max = true ∧
      (single 5000).commit u64Max = .ok (single u64Max) ∧
      (single u64Max).seqSpan = .error .overflow := by
  have hfirst : new.commit u64Max = .error .overflow := by decide +kernel
  have hnext : (single (u64Max - 1)).commit u64Max = .error .overflow := by decide +kernel
  exact ⟨⟨by decide +kernel, hfirst, commitWrapping_eq_none hfirst⟩,
    ⟨by decide +kernel, by decide +kernel, hnext, commitWrapping_eq_none hnext⟩,
    by decide +kernel, by decide +kernel, by decide +kernel, by decide +kernel⟩

end AtpExperiment.ReplayWindow
