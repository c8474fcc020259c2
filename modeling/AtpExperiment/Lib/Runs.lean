/-
Runs of a transition system: an initial predicate and a step relation.

A state is reachable when a finite run of steps leads to it from an initial
one. `Reachable.invariant` is the induction every safety proof uses, and
`Reachable.invariant_of` the same with facts already known of every
reachable state. `Emits` adds to a run what its labels emit, in order; `Trace`
is a run as the list of its labels, which an invariant may speak of
(`Trace.history`) and which may be chosen by its inputs (`Trace.exists_of_inputs`);
it splits anywhere (`Trace.split`) and at the step that brings a property about
(`Trace.crosses`).
-/
import Mathlib.Data.List.Basic
import Mathlib.Logic.Relation

namespace Runs

variable {σ : Type*} {init : σ → Prop} {step : σ → σ → Prop}

/-- Some finite run from an initial state ends in `s`. -/
def Reachable (init : σ → Prop) (step : σ → σ → Prop) (s : σ) : Prop :=
  ∃ s₀, init s₀ ∧ Relation.ReflTransGen step s₀ s

theorem Reachable.start {s : σ} (h : init s) : Reachable init step s := ⟨s, h, .refl⟩

theorem Reachable.next {s t : σ} (h : Reachable init step s) (hst : step s t) :
    Reachable init step t := by
  obtain ⟨s₀, h₀, hs⟩ := h
  exact ⟨s₀, h₀, hs.tail hst⟩

/-- A property of every initial state that every step keeps. -/
theorem Reachable.invariant {s : σ} (h : Reachable init step s) (I : σ → Prop)
    (h₀ : ∀ s, init s → I s) (hstep : ∀ s t, I s → step s t → I t) : I s := by
  obtain ⟨s₀, hi, hs⟩ := h
  induction hs with
  | refl => exact h₀ _ hi
  | tail _ hst ih => exact hstep _ _ ih hst

/-- The same, where a step may use a property already proved invariant. -/
theorem Reachable.invariant_of {s : σ} (h : Reachable init step s) {Q : σ → Prop}
    (hQ : ∀ s, Reachable init step s → Q s) (I : σ → Prop)
    (h₀ : ∀ s, init s → I s) (hstep : ∀ s t, Q s → Q t → I s → step s t → I t) : I s := by
  have key : ∀ s, Reachable init step s → Reachable init step s ∧ I s := by
    intro s hs
    refine hs.invariant (fun s => Reachable init step s ∧ I s)
      (fun s hi => ⟨.start hi, h₀ s hi⟩) fun s t ⟨hr, hI⟩ hst => ?_
    exact ⟨hr.next hst, hstep s t (hQ s hr) (hQ t (hr.next hst)) hI hst⟩
  exact (key s h).2

/-! ## Histories -/

/-- A run of labelled steps leads from an initial state to a state, and its
labels emitted a list, first to last. -/
inductive Emits {α β : Type*} (init : σ → Prop) (emit : α → List β) (step : σ → α → σ → Prop) :
    σ → List β → Prop
  | start {s : σ} (h : init s) : Emits init emit step s []
  | next {s t : σ} {a : α} {out : List β} (h : Emits init emit step s out) (hst : step s a t) :
    Emits init emit step t (out ++ emit a)

/-! ## Traces -/

theorem filterMap_concat {α β : Type*} (f : α → Option β) (as : List α) (a : α) :
    (as ++ [a]).filterMap f = as.filterMap f ++ (f a).toList := by
  rw [List.filterMap_append, List.filterMap_cons, List.filterMap_nil]
  cases f a <;> rfl

/-- A run of labelled steps from one state to another. -/
inductive Trace {α : Type*} (step : σ → α → σ → Prop) : σ → List α → σ → Prop
  | nil {s : σ} : Trace step s [] s
  | cons {s t u : σ} {a : α} {as : List α} (hst : step s a t) (h : Trace step t as u) :
    Trace step s (a :: as) u

namespace Trace

variable {α : Type*} {step : σ → α → σ → Prop}

theorem concat {s t u : σ} {as : List α} {a : α} (h : Trace step s as t) (hst : step t a u) :
    Trace step s (as ++ [a]) u := by
  induction h with
  | nil => exact .cons hst .nil
  | cons hst' _ ih => exact .cons hst' (ih hst)

theorem split {s t : σ} {as bs : List α} (h : Trace step s (as ++ bs) t) :
    ∃ u, Trace step s as u ∧ Trace step u bs t := by
  induction as generalizing s with
  | nil => exact ⟨s, .nil, h⟩
  | cons a as ih =>
    cases h with
    | cons hst h =>
      obtain ⟨u, h₁, h₂⟩ := ih h
      exact ⟨u, .cons hst h₁, h₂⟩

theorem map {τ β : Type*} (step' : τ → β → τ → Prop) (f : σ → τ) (g : α → β)
    (hstep : ∀ s a t, step s a t → step' (f s) (g a) (f t)) {s t : σ} {as : List α}
    (h : Trace step s as t) : Trace step' (f s) (as.map g) (f t) := by
  induction h with
  | nil => exact .nil
  | cons hst _ ih => exact .cons (hstep _ _ _ hst) ih

theorem invariant {s t : σ} {as : List α} (h : Trace step s as t) (I : σ → Prop) (hs : I s)
    (hstep : ∀ s a t, I s → step s a t → I t) : I t := by
  induction h with
  | nil => exact hs
  | cons hst _ ih => exact ih (hstep _ _ _ hs hst)

/-- A property of a state and the labels that led to it, which every step keeps. -/
theorem history {s t : σ} {as : List α} (h : Trace step s as t) (I : List α → σ → Prop)
    (hs : I [] s) (hstep : ∀ as s a t, I as s → step s a t → I (as ++ [a]) t) : I as t := by
  have key : ∀ pre, I pre s → I (pre ++ as) t := by
    clear hs
    induction h with
    | nil => exact fun pre hpre => by rwa [List.append_nil]
    | cons hst _ ih =>
      intro pre hpre
      have := ih (pre ++ [_]) (hstep _ _ _ _ hpre hst)
      rwa [List.append_assoc] at this
  exact key [] hs

theorem forall_mem {s t : σ} {as : List α} (h : Trace step s as t) (I : σ → Prop) (hs : I s)
    (hstep : ∀ s a t, I s → step s a t → I t) {P : α → Prop}
    (hP : ∀ s a t, I s → step s a t → P a) : ∀ a ∈ as, P a := by
  induction h with
  | nil => exact fun a ha => nomatch ha
  | cons hst _ ih =>
    intro a ha
    rcases List.mem_cons.mp ha with rfl | ha
    · exact hP _ _ _ hs hst
    · exact ih (hstep _ _ _ hs hst) a ha

/-- Inputs that can each be taken from any state with an invariant are those of
a run. -/
theorem exists_of_inputs {β : Type*} (input : α → β) (I : σ → Prop) {P : β → Prop}
    (hstep : ∀ s b, I s → P b → ∃ a t, input a = b ∧ step s a t ∧ I t) {s : σ} (hs : I s)
    {bs : List β} (hbs : ∀ b ∈ bs, P b) : ∃ as t, Trace step s as t ∧ as.map input = bs := by
  induction bs generalizing s with
  | nil => exact ⟨[], s, .nil, rfl⟩
  | cons b bs ih =>
    rw [List.forall_mem_cons] at hbs
    obtain ⟨a, t, rfl, hst, ht⟩ := hstep s b hs hbs.1
    obtain ⟨as, u, has, rfl⟩ := ih ht hbs.2
    exact ⟨a :: as, u, .cons hst has, rfl⟩

/-- Where a property fails at the start of a run and holds at its end, some step
brings it about. -/
theorem crosses {s t : σ} {as : List α} (h : Trace step s as t) (P : σ → Prop) (hs : ¬ P s)
    (ht : P t) : ∃ as₁ a as₂ u v, as = as₁ ++ a :: as₂ ∧ Trace step s as₁ u ∧ ¬ P u ∧
      step u a v ∧ P v ∧ Trace step v as₂ t := by
  induction h with
  | nil => exact absurd ht hs
  | @cons s₁ s₂ s₃ a as hst h ih =>
    by_cases hP : P s₂
    · exact ⟨[], a, as, s₁, s₂, rfl, .nil, hs, hst, hP, h⟩
    · obtain ⟨as₁, b, as₂, u, v, rfl, hu, hnu, huv, hv, hvt⟩ := ih hP ht
      exact ⟨a :: as₁, b, as₂, u, v, rfl, .cons hst hu, hnu, huv, hv, hvt⟩

end Trace

end Runs
