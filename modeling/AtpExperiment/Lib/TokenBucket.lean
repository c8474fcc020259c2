/-
Pacing by deadlines: a token bucket with a bounded burst.

Each use of a resource arrives at some time, costs some time, and moves the
deadline on by its cost; a deadline that lies further back than a burst `B` is
first brought up to that. A use leaves no earlier than its deadline. Over any
run of uses the cost is at most the time from the first arrival to the last
departure and one burst (`total_le`); while every use arrives within a burst of
the deadline before it, the deadline counts the cost exactly
(`deadline_of_prompt`).
-/
import AtpExperiment.Lib.Runs
import Mathlib.Algebra.Order.Group.Defs
import Mathlib.Tactic.Abel
import Mathlib.Tactic.GCongr

namespace TokenBucket

open Runs

variable {α : Type*} [AddCommGroup α] [LinearOrder α] [IsOrderedAddMonoid α]

/-- A use: when it arrives, what it costs, and when it leaves. -/
structure Use (α : Type*) where
  arrive : α
  cost : α
  leave : α

/-- The deadline of a use, after that of the use before it. -/
def deadline (B : α) : Option α → Use α → α
  | none, u => u.arrive + u.cost
  | some d, u => max d (u.arrive - B) + u.cost

/-- A use sets its deadline and leaves no earlier. -/
def Uses (B : α) (s : Option α) (u : Use α) (t : Option α) : Prop :=
  t = some (deadline B s u) ∧ deadline B s u ≤ u.leave

/-- The use arrives within a burst of the deadline before it. -/
def Prompt (B : α) (s : Option α) (u : Use α) : Prop := ∀ d, s = some d → u.arrive ≤ d + B

/-- The cost of a run of uses. -/
def total : List (Use α) → α
  | [] => 0
  | u :: us => u.cost + total us

variable {B d : α} {s t : Option α} {u v : Use α} {us : List (Use α)}

/-! ## The bound of a window -/

theorem sub_add_cost_le (hB : 0 ≤ B) (s : Option α) (u : Use α) :
    u.arrive - B + u.cost ≤ deadline B s u := by
  cases s with
  | none =>
    rw [deadline]
    gcongr
    exact sub_le_self _ hB
  | some d =>
    rw [deadline]
    gcongr
    exact le_max_right _ _

/-- A deadline moves on by the cost of what follows, at least. -/
theorem add_total_le (h : Trace (Uses B) (some d) us t) : ∃ e, t = some e ∧ d + total us ≤ e := by
  induction us generalizing d with
  | nil =>
    cases h
    exact ⟨d, rfl, (add_zero d).le⟩
  | cons u us ih =>
    cases h with
    | cons hst h =>
      obtain ⟨rfl, -⟩ := hst
      obtain ⟨e, rfl, hle⟩ := ih h
      refine ⟨e, rfl, ?_⟩
      calc d + total (u :: us) = d + u.cost + total us := (add_assoc d u.cost _).symm
        _ ≤ deadline B (some d) u + total us := by
          rw [deadline]
          gcongr
          exact le_max_left _ _
        _ ≤ e := hle

omit [IsOrderedAddMonoid α] in
theorem le_leave (h : Trace (Uses B) s us t) (hlast : us.getLast? = some v) :
    ∃ e, t = some e ∧ e ≤ v.leave := by
  induction h with
  | nil => cases hlast
  | @cons s t₁ t u us hst h ih =>
    cases h with
    | nil =>
      obtain rfl : u = v := by simpa using hlast
      exact ⟨_, hst.1, hst.2⟩
    | cons hst' h' => exact ih (by rwa [List.getLast?_cons_cons] at hlast)

/-- The cost of a run of uses: the time it took and one burst, at most. -/
theorem total_le (hB : 0 ≤ B) (h : Trace (Uses B) s us t) (hfirst : us.head? = some u)
    (hlast : us.getLast? = some v) : total us ≤ (v.leave - u.arrive) + B := by
  obtain ⟨e, rfl, hleave⟩ := le_leave h hlast
  cases h with
  | nil => cases hlast
  | @cons _ _ _ u' us hst h =>
    obtain rfl : u' = u := by simpa using hfirst
    obtain ⟨rfl, -⟩ := hst
    obtain ⟨e', he, hle⟩ := add_total_le h
    cases he
    have hdead := sub_add_cost_le hB s u'
    have hsum : u'.arrive - B + total (u' :: us) ≤ v.leave :=
      calc u'.arrive - B + total (u' :: us) = u'.arrive - B + u'.cost + total us :=
            (add_assoc _ _ _).symm
        _ ≤ deadline B s u' + total us := by gcongr
        _ ≤ e := hle
        _ ≤ v.leave := hleave
    calc total (u' :: us) ≤ v.leave - (u'.arrive - B) := le_sub_iff_add_le'.mpr hsum
      _ = (v.leave - u'.arrive) + B := by abel

/-! ## No drift -/

theorem deadline_some_of_prompt (h : Prompt B (some d) u) : deadline B (some d) u = d + u.cost := by
  rw [deadline, max_eq_left (sub_le_iff_le_add.mpr (h d rfl))]

/-- From a deadline on, prompt uses move it by exactly their cost. -/
theorem deadline_of_prompt (h : Trace (fun s u t => Uses B s u t ∧ Prompt B s u) (some d) us t) :
    t = some (d + total us) := by
  induction us generalizing d with
  | nil =>
    cases h
    rw [total, add_zero]
  | cons u us ih =>
    cases h with
    | cons hst h =>
      obtain ⟨⟨rfl, -⟩, hprompt⟩ := hst
      rw [deadline_some_of_prompt hprompt] at h
      rw [ih h, total, add_assoc]

/-- From the start, the deadline is the first arrival and the cost so far. -/
theorem deadline_of_first (h : Trace (fun s u t => Uses B s u t ∧ Prompt B s u) none us t)
    (hfirst : us.head? = some u) : t = some (u.arrive + total us) := by
  cases h with
  | nil => cases hfirst
  | @cons _ _ _ u' us hst h =>
    obtain rfl : u' = u := by simpa using hfirst
    obtain ⟨⟨rfl, -⟩, -⟩ := hst
    rw [deadline_of_prompt h, deadline, total, add_assoc]

end TokenBucket
