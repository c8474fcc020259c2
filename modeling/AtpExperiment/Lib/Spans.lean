/-
Consecutive spans of a history, each beginning where the one before it ended.

Measured along the history, spans that do not run backwards count every point
between the first beginning and the last end once, and no other point
(`Consecutive.countP_eq`).
-/
import Mathlib.Order.Lattice
import Mathlib.Tactic.Common

namespace Spans

variable {σ : Type*}

/-- Spans from one snapshot to another, first to last. -/
inductive Consecutive : σ → List (σ × σ) → σ → Prop
  | nil {a : σ} : Consecutive a [] a
  | snoc {a b : σ} {is : List (σ × σ)} (h : Consecutive a is b) (c : σ) :
    Consecutive a (is ++ [(b, c)]) c

namespace Consecutive

variable {a b : σ} {is : List (σ × σ)} {τ : Type*}

theorem le [Preorder τ] (f : σ → τ) (h : Consecutive a is b) (hle : ∀ i ∈ is, f i.1 ≤ f i.2) :
    f a ≤ f b := by
  induction h with
  | nil => exact le_rfl
  | snoc _ c ih =>
    rw [List.forall_mem_append, List.forall_mem_singleton] at hle
    exact (ih hle.1).trans hle.2

theorem fst_eq (h : Consecutive a is b) : ∀ i ∈ is, i.1 = a ∨ ∃ j ∈ is, i.1 = j.2 := by
  induction h with
  | nil => exact fun i hi => by cases hi
  | @snoc b is h c ih =>
    intro i hi
    rcases List.mem_append.mp hi with hi | hi
    · exact (ih i hi).imp_right fun ⟨j, hj, he⟩ => ⟨j, List.mem_append_left _ hj, he⟩
    · obtain rfl := List.mem_singleton.mp hi
      -- The last span begins where those before it end.
      cases h with
      | nil => exact .inl rfl
      | snoc h c' => exact .inr ⟨_, List.mem_append_left _ (List.mem_append_right _
          List.mem_cons_self), rfl⟩

/-- A point lies in one span if it is between the ends, in none otherwise. -/
theorem countP_eq [LinearOrder τ] (f : σ → τ) (h : Consecutive a is b)
    (hle : ∀ i ∈ is, f i.1 ≤ f i.2) (x : τ) :
    is.countP (fun i => f i.1 ≤ x ∧ x < f i.2) = if f a ≤ x ∧ x < f b then 1 else 0 := by
  induction h with
  | nil =>
    rw [List.countP_nil, if_neg fun hx => not_lt_of_ge hx.1 hx.2]
  | @snoc b is h c ih =>
    rw [List.forall_mem_append, List.forall_mem_singleton] at hle
    obtain ⟨hall, hbc⟩ := hle
    have hab := h.le f hall
    rw [List.countP_append, ih hall, List.countP_singleton]
    -- The point is before the last span, in it, or after it.
    rcases lt_or_ge x (f b) with hlt | hge
    · have hxc : x < f c := hlt.trans_le hbc
      simp [hlt, hxc]
    · have hax : f a ≤ x := hab.trans hge
      simp [hge, hax, not_lt_of_ge hge]

end Consecutive

end Spans
