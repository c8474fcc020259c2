/-
A window over samples in the order of their times, popped at the front only.

Samples are pushed at the back; then what lies further back than a width is
popped, from the front as long as there is any. When the times increase this
keeps exactly the recorded samples that are fresh (`pop_push`). Samples some
time apart are few (`Spaced.length_le`), and a maximum folded over a window is
the greatest of its values (`isGreatest_foldl_max`).
-/
import Mathlib.Order.Bounds.Basic
import Mathlib.Order.MinMax

namespace TimeWindow

variable {σ : Type*} (time : σ → ℕ) (width : ℕ)

/-- Not further back than the width. -/
def fresh (now : ℕ) (s : σ) : Bool := decide (now ≤ time s + width)

/-- The front is popped while it is not fresh. -/
def pop (now : ℕ) (ss : List σ) : List σ := ss.dropWhile fun s => !fresh time width now s

/-- The times increase by a gap at least. -/
def Spaced (gap : ℕ) (ss : List σ) : Prop := ss.Pairwise fun a b => time a + gap ≤ time b

variable {time width} {gap now : ℕ} {s : σ} {ss : List σ}

@[simp] theorem fresh_iff : fresh time width now s = true ↔ now ≤ time s + width := by
  simp [fresh]

theorem Spaced.head_le (h : Spaced time gap ss) {a b : σ} (ha : a ∈ ss.head?) (hb : b ∈ ss) :
    time a ≤ time b := by
  cases ss with
  | nil => cases hb
  | cons s ss =>
    cases ha
    rcases List.mem_cons.mp hb with rfl | hb
    · exact le_rfl
    · exact (Nat.le_add_right _ gap).trans ((List.pairwise_cons.mp h).1 b hb)

theorem pop_cons_of_le (h : now ≤ time s + width) : pop time width now (s :: ss) = s :: ss := by
  simp [pop, fresh_iff.mpr h]

theorem pop_cons_of_lt (h : time s + width < now) :
    pop time width now (s :: ss) = pop time width now ss := by
  have hf : fresh time width now s = false := by simpa [fresh] using h
  simp [pop, hf]

/-- On samples in order, popping the front is dropping all that are not fresh. -/
theorem Spaced.pop_eq_filter (h : Spaced time gap ss) (now : ℕ) :
    pop time width now ss = ss.filter (fresh time width now) := by
  induction ss with
  | nil => rfl
  | cons s ss ih =>
    obtain ⟨hs, hss⟩ := List.pairwise_cons.mp h
    rw [List.filter_cons]
    split
    · next hf =>
      rw [fresh_iff] at hf
      -- What follows a fresh sample is fresh, so nothing of it is dropped.
      have hall : ∀ t ∈ ss, fresh time width now t = true := by
        intro t ht
        have := hs t ht
        rw [fresh_iff]
        omega
      rw [pop_cons_of_le hf, List.filter_eq_self.mpr hall]
    · next hf =>
      rw [fresh_iff, not_le] at hf
      rw [pop_cons_of_lt hf, ih hss]

/-- A push and the pops that follow keep the fresh samples, where the window had
those of an earlier time. -/
theorem pop_push {recorded kept : List σ} (h : Spaced time gap (recorded ++ [s]))
    (hk : kept = recorded.filter (fresh time width now)) (hnow : now ≤ time s) :
    pop time width (time s) (kept ++ [s]) =
      (recorded ++ [s]).filter (fresh time width (time s)) := by
  have hsub : (kept ++ [s]).Sublist (recorded ++ [s]) := by
    rw [hk]
    exact List.filter_sublist.append_right [s]
  have hspaced : Spaced time gap (kept ++ [s]) := List.Pairwise.sublist hsub h
  rw [hspaced.pop_eq_filter, List.filter_append, List.filter_append, hk, List.filter_filter]
  congr 1
  refine List.filter_congr fun t _ => ?_
  rw [Bool.and_eq_left_iff_imp]
  intro ht
  rw [fresh_iff] at ht ⊢
  omega

theorem Spaced.exists_late (h : Spaced time gap (s :: ss)) :
    ∃ t ∈ s :: ss, time s + gap * ss.length ≤ time t := by
  induction ss generalizing s with
  | nil => exact ⟨s, List.mem_cons_self, le_rfl⟩
  | cons s' ss ih =>
    obtain ⟨hs, hss⟩ := List.pairwise_cons.mp h
    obtain ⟨t, ht, hle⟩ := ih hss
    refine ⟨t, List.mem_cons_of_mem s ht, ?_⟩
    have hstep := hs s' List.mem_cons_self
    rw [List.length_cons, Nat.mul_succ]
    omega

/-- Samples a gap apart, none further back than the width, are few. -/
theorem Spaced.length_le (hgap : 0 < gap) (h : Spaced time gap ss)
    (hw : ∀ a ∈ ss, ∀ b ∈ ss, time b ≤ time a + width) : ss.length ≤ width / gap + 1 := by
  cases ss with
  | nil => exact Nat.zero_le _
  | cons s ss =>
    obtain ⟨t, ht, hle⟩ := h.exists_late
    have hwidth := hw s List.mem_cons_self t ht
    have hmul : ss.length * gap ≤ width := by
      rw [Nat.mul_comm]
      omega
    exact Nat.succ_le_succ ((Nat.le_div_iff_mul_le hgap).mpr hmul)

/-! ## Maximum -/

variable {α : Type*} [LinearOrder α]

theorem foldl_max_le_iff {val : σ → α} {a b : α} :
    ss.foldl (fun m s => max m (val s)) a ≤ b ↔ a ≤ b ∧ ∀ s ∈ ss, val s ≤ b := by
  induction ss generalizing a with
  | nil => simp
  | cons s ss ih => simp [ih, and_assoc]

theorem foldl_max_mem (ss : List σ) (val : σ → α) (a : α) :
    ss.foldl (fun m s => max m (val s)) a = a ∨
      ∃ s ∈ ss, ss.foldl (fun m s => max m (val s)) a = val s := by
  induction ss generalizing a with
  | nil => exact .inl rfl
  | cons s ss ih =>
    rw [List.foldl_cons]
    rcases ih (max a (val s)) with he | ⟨t, ht, he⟩
    · rcases max_choice a (val s) with hm | hm
      · exact .inl (he.trans hm)
      · exact .inr ⟨s, List.mem_cons_self, he.trans hm⟩
    · exact .inr ⟨t, List.mem_cons_of_mem s ht, he⟩

/-- The maximum over a window that is not empty, from a start below its values. -/
theorem isGreatest_foldl_max {val : σ → α} {a : α} (hne : ss ≠ []) (ha : ∀ s ∈ ss, a ≤ val s) :
    IsGreatest {x | ∃ s ∈ ss, val s = x} (ss.foldl (fun m s => max m (val s)) a) := by
  obtain ⟨hstart, hle⟩ := foldl_max_le_iff.mp (le_refl (ss.foldl (fun m s => max m (val s)) a))
  refine ⟨?_, ?_⟩
  · rcases foldl_max_mem ss val a with he | ⟨s, hs, he⟩
    · -- The start is a value too, since it lies below them all.
      obtain ⟨s, hs⟩ := List.exists_mem_of_ne_nil ss hne
      exact ⟨s, hs, le_antisymm (hle s hs) (he.le.trans (ha s hs))⟩
    · exact ⟨s, hs, he.symm⟩
  · rintro x ⟨s, hs, rfl⟩
    exact hle s hs

end TimeWindow
