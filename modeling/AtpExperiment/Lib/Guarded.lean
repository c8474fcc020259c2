/-
An object behind a lock, used by any number of callers.

An operation answers before it takes the lock, or runs step by step inside it; a
step that crashes there poisons the lock, and whoever takes it later crashes too.
The steps of the callers interleave. `Inv` is linearizability with the points
named: the points of a history are, in order, operations run one after the other
(`Obj.Sequential`), and each caller has its point between its call and its return.
A poisoned object answers only what it answers without the lock
(`Step.of_poisoned`); where the operations called keep the preconditions of the
steps, it is not poisoned (`Safe.exists_call`).
-/
import AtpExperiment.Lib.Runs
import Mathlib.Data.List.Basic
import Mathlib.Logic.Function.Basic

namespace Guarded

variable {σ Op Loc Res ι : Type}

/-- What a step inside the lock does. -/
inductive Out (σ Loc Res : Type)
  | next (l : Loc) (s : σ)
  | done (r : Res) (s : σ)
  | crash

/-- An operation answers at once, or has a first location inside the lock. -/
structure Obj (σ Op Loc Res : Type) where
  enter : Op → Res ⊕ Loc
  step : Loc → σ → Out σ Loc Res

/-! ## One operation after the other -/

/-- The steps from a location to the answer, by one caller. -/
inductive Exec (step : Loc → σ → Out σ Loc Res) : Loc → σ → Res → σ → Prop
  | done {l : Loc} {s s' : σ} {r : Res} (h : step l s = .done r s') : Exec step l s r s'
  | next {l l' : Loc} {s s' t : σ} {r : Res} (h : step l s = .next l' s')
      (hx : Exec step l' s' r t) : Exec step l s r t

section

variable {step : Loc → σ → Out σ Loc Res} {l l' : Loc} {s s' t : σ} {r r' : Res}

theorem exec_of_done (h : step l s = .done r s') : Exec step l s r' t ↔ r' = r ∧ t = s' := by
  constructor
  · intro hx
    cases hx with
    | done h' =>
      cases h.symm.trans h'
      exact ⟨rfl, rfl⟩
    | next h' => cases h.symm.trans h'
  · rintro ⟨rfl, rfl⟩
    exact .done h

theorem exec_of_next (h : step l s = .next l' s') :
    Exec step l s r t ↔ Exec step l' s' r t := by
  refine ⟨fun hx => ?_, .next h⟩
  cases hx with
  | done h' => cases h.symm.trans h'
  | next h' hx =>
    cases h.symm.trans h'
    exact hx

theorem not_exec_of_crash (h : step l s = .crash) : ¬ Exec step l s r t := by
  intro hx
  cases hx with
  | done h' | next h' => cases h.symm.trans h'

end

namespace Obj

/-- An operation run by itself. -/
inductive Runs (o : Obj σ Op Loc Res) : Op → σ → Res → σ → Prop
  | early {op : Op} {s : σ} {r : Res} (h : o.enter op = .inl r) : Runs o op s r s
  | inside {op : Op} {l : Loc} {s s' : σ} {r : Res} (h : o.enter op = .inr l)
      (hx : Exec o.step l s r s') : Runs o op s r s'

section

variable {o : Obj σ Op Loc Res} {op : Op} {l : Loc} {s t : σ} {r r' : Res}

theorem runs_of_inl (h : o.enter op = .inl r) : o.Runs op s r' t ↔ r' = r ∧ t = s := by
  constructor
  · intro hr
    cases hr with
    | early h' =>
      cases h.symm.trans h'
      exact ⟨rfl, rfl⟩
    | inside h' => cases h.symm.trans h'
  · rintro ⟨rfl, rfl⟩
    exact .early h

theorem runs_of_inr (h : o.enter op = .inr l) : o.Runs op s r t ↔ Exec o.step l s r t := by
  refine ⟨fun hr => ?_, .inside h⟩
  cases hr with
  | early h' => cases h.symm.trans h'
  | inside h' hx =>
    cases h.symm.trans h'
    exact hx

end

/-- Operations run one after the other, with their answers. -/
inductive Sequential (o : Obj σ Op Loc Res) (init : σ) : List (Op × Res) → σ → Prop
  | nil : Sequential o init [] init
  | snoc {xs : List (Op × Res)} {s s' : σ} {op : Op} {r : Res} (h : Sequential o init xs s)
      (hr : o.Runs op s r s') : Sequential o init (xs ++ [(op, r)]) s'

end Obj

/-! ## Callers -/

/-- Where a caller is. -/
inductive Pc (Op Loc Res : Type)
  | idle
  | called (op : Op)
  /-- With the lock. -/
  | inside (op : Op) (l : Loc)
  /-- Answered, with the lock. -/
  | answered (op : Op) (r : Res)
  /-- Answered, without it. -/
  | returning (op : Op) (r : Res)
  | crashed (op : Op)

/-- What is seen of a caller, and the point at which its operation takes effect. -/
inductive Event (ι Op Res : Type)
  | call (i : ι) (op : Op)
  | point (i : ι) (op : Op) (r : Res)
  | ret (i : ι) (op : Op) (r : Res)

structure State (σ Op Loc Res ι : Type) where
  shared : σ
  holder : Option ι
  poisoned : Bool
  pc : ι → Pc Op Loc Res
  hist : List (Event ι Op Res)

/-- No caller has come. -/
def Init (init : σ) (s : State σ Op Loc Res ι) : Prop :=
  s.shared = init ∧ s.holder = none ∧ s.poisoned = false ∧ (∀ i, s.pc i = .idle) ∧ s.hist = []

variable [DecidableEq ι]

/-- One step of one caller. -/
inductive Step (o : Obj σ Op Loc Res) : State σ Op Loc Res ι → State σ Op Loc Res ι → Prop
  | call {s : State σ Op Loc Res ι} (i : ι) (op : Op) (h : s.pc i = .idle) :
    Step o s { s with
      pc := Function.update s.pc i (.called op)
      hist := s.hist ++ [.call i op] }
  | early {s : State σ Op Loc Res ι} (i : ι) {op : Op} {r : Res} (h : s.pc i = .called op)
      (he : o.enter op = .inl r) :
    Step o s { s with
      pc := Function.update s.pc i (.returning op r)
      hist := s.hist ++ [.point i op r] }
  | lock {s : State σ Op Loc Res ι} (i : ι) {op : Op} {l : Loc} (h : s.pc i = .called op)
      (he : o.enter op = .inr l) (hfree : s.holder = none) (hp : s.poisoned = false) :
    Step o s { s with
      pc := Function.update s.pc i (.inside op l)
      holder := some i }
  | refused {s : State σ Op Loc Res ι} (i : ι) {op : Op} {l : Loc} (h : s.pc i = .called op)
      (he : o.enter op = .inr l) (hp : s.poisoned = true) :
    Step o s { s with pc := Function.update s.pc i (.crashed op) }
  | next {s : State σ Op Loc Res ι} (i : ι) {op : Op} {l l' : Loc} {t : σ}
      (h : s.pc i = .inside op l) (hs : o.step l s.shared = .next l' t) :
    Step o s { s with
      shared := t
      pc := Function.update s.pc i (.inside op l') }
  | point {s : State σ Op Loc Res ι} (i : ι) {op : Op} {l : Loc} {r : Res} {t : σ}
      (h : s.pc i = .inside op l) (hs : o.step l s.shared = .done r t) :
    Step o s { s with
      shared := t
      pc := Function.update s.pc i (.answered op r)
      hist := s.hist ++ [.point i op r] }
  | crash {s : State σ Op Loc Res ι} (i : ι) {op : Op} {l : Loc} (h : s.pc i = .inside op l)
      (hs : o.step l s.shared = .crash) :
    Step o s { s with
      pc := Function.update s.pc i (.crashed op)
      holder := none
      poisoned := true }
  | unlock {s : State σ Op Loc Res ι} (i : ι) {op : Op} {r : Res} (h : s.pc i = .answered op r) :
    Step o s { s with
      pc := Function.update s.pc i (.returning op r)
      holder := none }
  | ret {s : State σ Op Loc Res ι} (i : ι) {op : Op} {r : Res} (h : s.pc i = .returning op r) :
    Step o s { s with
      pc := Function.update s.pc i .idle
      hist := s.hist ++ [.ret i op r] }

/-! ## Histories -/

/-- The operations of a history at their points. -/
def points (hist : List (Event ι Op Res)) : List (Op × Res) :=
  hist.filterMap fun
    | .point _ op r => some (op, r)
    | _ => none

def Event.caller : Event ι Op Res → ι
  | .call i _ | .point i _ _ | .ret i _ _ => i

/-- The events of one caller. -/
def eventsOf (i : ι) (hist : List (Event ι Op Res)) : List (Event ι Op Res) :=
  hist.filter fun e => e.caller = i

/-- Whole operations of one caller: the call, the point with its answer, the return
of that answer. -/
inductive Whole (i : ι) : List (Event ι Op Res) → Prop
  | nil : Whole i []
  | snoc {es : List (Event ι Op Res)} (h : Whole i es) (op : Op) (r : Res) :
    Whole i (es ++ [.call i op, .point i op r, .ret i op r])

/-- The events since a caller's last return. -/
def Pc.trail (i : ι) : Pc Op Loc Res → List (Event ι Op Res)
  | .idle => []
  | .called op | .inside op _ | .crashed op => [.call i op]
  | .answered op r | .returning op r => [.call i op, .point i op r]

/-- With the lock. -/
def Pc.locked : Pc Op Loc Res → Bool
  | .inside .. | .answered .. => true
  | _ => false

/-! ## Linearizability -/

/-- The shared value against `t`, that of the operations whose points have passed:
the holder is on its way from `t`, or the value is `t`. -/
def Current (o : Obj σ Op Loc Res) (s : State σ Op Loc Res ι) (t : σ) : Prop :=
  s.poisoned = true ∨
  (∃ i op l₀ l, s.holder = some i ∧ s.pc i = .inside op l ∧ o.enter op = .inr l₀ ∧
    ∀ r t', Exec o.step l s.shared r t' → Exec o.step l₀ t r t') ∨
  (∀ i op l, s.holder = some i → s.pc i ≠ .inside op l) ∧ s.shared = t

structure Inv (o : Obj σ Op Loc Res) (init : σ) (s : State σ Op Loc Res ι) : Prop where
  holder : ∀ i, s.holder = some i ↔ (s.pc i).locked = true
  poisoned : s.poisoned = true → s.holder = none
  points : ∃ t, o.Sequential init (points s.hist) t ∧ Current o s t
  trails : ∀ i, ∃ es, Whole i es ∧ eventsOf i s.hist = es ++ (s.pc i).trail i

variable {o : Obj σ Op Loc Res} {init : σ} {s s' : State σ Op Loc Res ι}

omit [DecidableEq ι] in
theorem points_append (hist new : List (Event ι Op Res)) :
    points (hist ++ new) = points hist ++ points new := List.filterMap_append

omit [DecidableEq ι] in
theorem points_call (hist : List (Event ι Op Res)) (i : ι) (op : Op) :
    points (hist ++ [.call i op]) = points hist := by
  rw [points_append]
  exact List.append_nil _

omit [DecidableEq ι] in
theorem points_ret (hist : List (Event ι Op Res)) (i : ι) (op : Op) (r : Res) :
    points (hist ++ [.ret i op r]) = points hist := by
  rw [points_append]
  exact List.append_nil _

theorem inv_init (h : Init init s) : Inv o init s := by
  obtain ⟨hshared, hholder, hpoisoned, hpc, hhist⟩ := h
  refine ⟨fun i => ?_, fun hp => ?_, ⟨init, ?_, ?_⟩, fun i => ⟨[], .nil, ?_⟩⟩
  · simp [hholder, hpc, Pc.locked]
  · exact hholder
  · rw [hhist]
    exact .nil
  · refine .inr (.inr ⟨fun i op l hi => ?_, hshared⟩)
    rw [hholder] at hi
    cases hi
  · rw [hhist, hpc]
    rfl

/-! ### One caller moves -/

theorem holder_of_same (h : ∀ j, s.holder = some j ↔ (s.pc j).locked = true) {i : ι}
    {p : Pc Op Loc Res} (hp : p.locked = (s.pc i).locked) (j : ι) :
    s.holder = some j ↔ (Function.update s.pc i p j).locked = true := by
  by_cases hj : j = i
  · subst hj
    rw [Function.update_self, hp]
    exact h j
  · rw [Function.update_of_ne hj]
    exact h j

theorem holder_of_release (h : ∀ j, s.holder = some j ↔ (s.pc j).locked = true) {i : ι}
    {p : Pc Op Loc Res} (hi : (s.pc i).locked = true) (hp : p.locked = false) (j : ι) :
    none = some j ↔ (Function.update s.pc i p j).locked = true := by
  simp only [reduceCtorEq, false_iff]
  intro hl
  by_cases hj : j = i
  · subst hj
    rw [Function.update_self, hp] at hl
    cases hl
  · rw [Function.update_of_ne hj, ← h, (h i).mpr hi] at hl
    exact absurd (Option.some.inj hl).symm hj

theorem Current.of_outside {t : σ} (h : Current o s t)
    (hholder : ∀ j, s.holder = some j ↔ (s.pc j).locked = true) {i : ι} {p : Pc Op Loc Res}
    (hi : (s.pc i).locked = false) (hist : List (Event ι Op Res)) :
    Current o { s with pc := Function.update s.pc i p, hist } t := by
  have hne : ∀ j, s.holder = some j → j ≠ i := by
    rintro j hj rfl
    rw [(hholder j).mp hj] at hi
    cases hi
  rcases h with hp | ⟨j, op, l₀, l, hj, hpc, he, hx⟩ | ⟨hn, ht⟩
  · exact .inl hp
  · have hpc' := (Function.update_of_ne (hne j hj) p s.pc).trans hpc
    exact .inr (.inl ⟨j, op, l₀, l, hj, hpc', he, hx⟩)
  · refine .inr (.inr ⟨fun j op l hj hpc => hn j op l hj ?_, ht⟩)
    exact (Function.update_of_ne (hne j hj) p s.pc).symm.trans hpc

theorem trails_update (h : ∀ j, ∃ es, Whole j es ∧ eventsOf j s.hist = es ++ (s.pc j).trail j)
    {i : ι} {p : Pc Op Loc Res} {new : List (Event ι Op Res)} (hnew : ∀ e ∈ new, e.caller = i)
    (hp : ∀ es, Whole i es → ∃ es', Whole i es' ∧ es ++ (s.pc i).trail i ++ new = es' ++ p.trail i)
    (j : ι) : ∃ es, Whole j es ∧
      eventsOf j (s.hist ++ new) = es ++ (Function.update s.pc i p j).trail j := by
  obtain ⟨es, hes, hof⟩ := h j
  by_cases hj : j = i
  · subst hj
    obtain ⟨es', hes', he⟩ := hp es hes
    refine ⟨es', hes', ?_⟩
    rw [Function.update_self, ← he, ← hof]
    simp only [eventsOf, List.filter_append, List.append_cancel_left_eq]
    exact List.filter_eq_self.mpr fun e he => decide_eq_true (hnew e he)
  · refine ⟨es, hes, ?_⟩
    rw [Function.update_of_ne hj, ← hof]
    have hnil : eventsOf j new = [] := List.filter_eq_nil_iff.mpr fun e he => by
      rw [hnew e he]
      simpa using fun h => hj h.symm
    simp only [eventsOf, List.filter_append] at hnil ⊢
    rw [hnil, List.append_nil]

theorem trails_same (h : ∀ j, ∃ es, Whole j es ∧ eventsOf j s.hist = es ++ (s.pc j).trail j)
    {i : ι} {p : Pc Op Loc Res} (hp : p.trail i = (s.pc i).trail i) (j : ι) :
    ∃ es, Whole j es ∧ eventsOf j s.hist = es ++ (Function.update s.pc i p j).trail j := by
  have hnew : ∀ e ∈ ([] : List (Event ι Op Res)), e.caller = i := fun e he => by cases he
  have := trails_update h (p := p) hnew (fun es hes => ⟨es, hes, by rw [List.append_nil, hp]⟩) j
  rwa [List.append_nil] at this

theorem Inv.step (hi : Inv o init s) (h : Step o s s') : Inv o init s' := by
  obtain ⟨t, hseq, hcur⟩ := hi.points
  cases h with
  | call i op h =>
    have hl : (s.pc i).locked = false := by rw [h]; rfl
    refine ⟨holder_of_same hi.holder (by rw [h]; rfl), hi.poisoned, ⟨t, ?_, ?_⟩,
      trails_update hi.trails (by simp [Event.caller]) fun es hes =>
        ⟨es, hes, by rw [h]; simp [Pc.trail]⟩⟩
    · rw [points_call]
      exact hseq
    · exact hcur.of_outside hi.holder hl _
  | @early i op r h he =>
    have hl : (s.pc i).locked = false := by rw [h]; rfl
    refine ⟨holder_of_same hi.holder (by rw [h]; rfl), hi.poisoned, ⟨t, ?_, ?_⟩,
      trails_update hi.trails (by simp [Event.caller]) fun es hes =>
        ⟨es, hes, by rw [h]; simp [Pc.trail]⟩⟩
    · rw [points_append]
      exact hseq.snoc (.early he)
    · exact hcur.of_outside hi.holder hl _
  | @lock i op l h he hfree hp =>
    refine ⟨fun j => ?_, fun hp' => ?_, ⟨t, hseq, ?_⟩, trails_same hi.trails (by rw [h]; rfl)⟩
    · by_cases hj : j = i
      · subst hj
        simp [Pc.locked]
      · have hn := hi.holder j
        rw [hfree] at hn
        simp only [Function.update_of_ne hj, ← hn]
        simpa using fun h => hj h.symm
    · cases hp.symm.trans hp'
    · rcases hcur with hp' | ⟨j, _, _, _, hj, -⟩ | ⟨-, rfl⟩
      · cases hp.symm.trans hp'
      · cases hfree.symm.trans hj
      · exact .inr (.inl ⟨i, op, l, l, rfl, Function.update_self .., he, fun r t' hx => hx⟩)
  | @refused i op l h he hp =>
    refine ⟨holder_of_same hi.holder (by rw [h]; rfl), hi.poisoned, ⟨t, hseq, .inl hp⟩,
      trails_same hi.trails (by rw [h]; rfl)⟩
  | @next i op l l' u h hs =>
    have hhold : s.holder = some i := (hi.holder i).mpr (by rw [h]; rfl)
    refine ⟨holder_of_same hi.holder (by rw [h]; rfl), hi.poisoned, ⟨t, hseq, ?_⟩,
      trails_same hi.trails (by rw [h]; rfl)⟩
    rcases hcur with hp | ⟨j, op', l₀, l₁, hj, hpc, he, hx⟩ | ⟨hn, -⟩
    · cases (hi.poisoned hp).symm.trans hhold
    · cases hhold.symm.trans hj
      cases h.symm.trans hpc
      exact .inr (.inl ⟨i, op, l₀, l', hhold, Function.update_self .., he,
        fun r t' hx' => hx r t' (.next hs hx')⟩)
    · exact absurd h (hn i op l hhold)
  | @point i op l r u h hs =>
    have hhold : s.holder = some i := (hi.holder i).mpr (by rw [h]; rfl)
    refine ⟨holder_of_same hi.holder (by rw [h]; rfl), hi.poisoned, ⟨u, ?_, ?_⟩,
      trails_update hi.trails (by simp [Event.caller]) fun es hes =>
        ⟨es, hes, by rw [h]; simp [Pc.trail]⟩⟩
    · rw [points_append]
      rcases hcur with hp | ⟨j, op', l₀, l₁, hj, hpc, he, hx⟩ | ⟨hn, -⟩
      · cases (hi.poisoned hp).symm.trans hhold
      · cases hhold.symm.trans hj
        cases h.symm.trans hpc
        exact hseq.snoc (.inside he (hx r u (.done hs)))
      · exact absurd h (hn i op l hhold)
    · refine .inr (.inr ⟨fun j op' l' hj => ?_, rfl⟩)
      cases hhold.symm.trans hj
      simp
  | @crash i op l h hs =>
    refine ⟨holder_of_release hi.holder (by rw [h]; rfl) rfl, fun _ => rfl,
      ⟨t, hseq, .inl rfl⟩, trails_same hi.trails (by rw [h]; rfl)⟩
  | @unlock i op r h =>
    have hhold : s.holder = some i := (hi.holder i).mpr (by rw [h]; rfl)
    refine ⟨holder_of_release hi.holder (by rw [h]; rfl) rfl, fun _ => rfl, ⟨t, hseq, ?_⟩,
      trails_same hi.trails (by rw [h]; rfl)⟩
    rcases hcur with hp | ⟨j, op', l₀, l₁, hj, hpc, -⟩ | ⟨-, ht⟩
    · exact .inl hp
    · cases hhold.symm.trans hj
      cases h.symm.trans hpc
    · exact .inr (.inr ⟨fun j _ _ hj => (by cases hj), ht⟩)
  | @ret i op r h =>
    have hl : (s.pc i).locked = false := by rw [h]; rfl
    refine ⟨holder_of_same hi.holder (by rw [h]; rfl), hi.poisoned, ⟨t, ?_, ?_⟩,
      trails_update hi.trails (by simp [Event.caller]) fun es hes =>
        ⟨_, hes.snoc op r, by rw [h]; simp [Pc.trail]⟩⟩
    · rw [points_ret]
      exact hseq
    · exact hcur.of_outside hi.holder hl _

/-- Any number of callers, in any interleaving. -/
theorem inv_of_reachable (h : Runs.Reachable (Init init) (Step o) s) : Inv o init s :=
  h.invariant _ (fun _ => inv_init) fun _ _ hi hst => hi.step hst

/-! ## A call that meets nobody -/

theorem Exec.reach {l : Loc} {v t : σ} {r : Res} (hx : Exec o.step l v r t) {i : ι} {op : Op} :
    ∀ {s : State σ Op Loc Res ι}, Runs.Reachable (Init init) (Step o) s →
      s.pc i = .inside op l → s.shared = v → Runs.Reachable (Init init) (Step o) { s with
        shared := t
        pc := Function.update s.pc i (.answered op r)
        hist := s.hist ++ [.point i op r] } := by
  induction hx with
  | done hs =>
    intro s h hpc hv
    subst hv
    exact h.next (.point i hpc hs)
  | next hs _ ih =>
    intro s h hpc hv
    subst hv
    have h' := ih (h.next (.next i hpc hs)) (Function.update_self ..) rfl
    rwa [Function.update_idem] at h'

/-- With nobody inside, an idle caller can run an operation to its return. -/
theorem reachable_alone (h : Runs.Reachable (Init init) (Step o) s) {i : ι} (hi : s.pc i = .idle)
    (hfree : s.holder = none) (hp : s.poisoned = false) {op : Op} {r : Res} {t : σ}
    (hr : o.Runs op s.shared r t) : Runs.Reachable (Init init) (Step o) { s with
      shared := t
      hist := s.hist ++ [.call i op, .point i op r, .ret i op r] } := by
  have hidle : Function.update s.pc i .idle = s.pc := by rw [← hi, Function.update_eq_self]
  have h₁ := h.next (.call i op hi)
  cases hr with
  | early he =>
    have h₂ := h₁.next (.early i (Function.update_self ..) he)
    have h₃ := h₂.next (.ret i (Function.update_self ..))
    simpa only [Function.update_idem, hidle, List.append_assoc, List.cons_append,
      List.nil_append] using h₃
  | inside he hx =>
    have h₂ := h₁.next (.lock i (Function.update_self ..) he hfree hp)
    have h₃ := hx.reach h₂ (Function.update_self ..) rfl
    have h₄ := h₃.next (.unlock i (Function.update_self ..))
    have h₅ := h₄.next (.ret i (Function.update_self ..))
    simpa only [Function.update_idem, hidle, ← hfree, List.append_assoc, List.cons_append,
      List.nil_append] using h₅

/-! ## After a crash -/

/-- A poisoned object stays poisoned, and answers only what it answers without the
lock. -/
theorem Step.of_poisoned (hi : Inv o init s) (hp : s.poisoned = true) (h : Step o s s') :
    s'.poisoned = true ∧ (points s'.hist = points s.hist ∨
      ∃ op r, o.enter op = .inl r ∧ points s'.hist = points s.hist ++ [(op, r)]) := by
  have hfree : ∀ i, (s.pc i).locked = true → False := by
    intro i hl
    cases (hi.poisoned hp).symm.trans ((hi.holder i).mpr hl)
  cases h with
  | call => exact ⟨hp, .inl (points_call _ _ _)⟩
  | ret => exact ⟨hp, .inl (points_ret _ _ _ _)⟩
  | early i h he =>
    refine ⟨hp, .inr ⟨_, _, he, ?_⟩⟩
    rw [points_append]
    rfl
  | lock i h he _ hp' => cases hp.symm.trans hp'
  | refused => exact ⟨hp, .inl rfl⟩
  | next i h | point i h | crash i h | unlock i h => exact (hfree i (by rw [h]; rfl)).elim

/-- What holds of the shared value between operations that are `A`, and at each
location inside one. -/
structure Safe (o : Obj σ Op Loc Res) (A : Op → Prop) (P : σ → Prop) (Q : Loc → σ → Prop) :
    Prop where
  enter {op : Op} {l : Loc} {s : σ} : A op → o.enter op = .inr l → P s → Q l s
  next {l l' : Loc} {s s' : σ} : Q l s → o.step l s = .next l' s' → Q l' s'
  done {l : Loc} {s s' : σ} {r : Res} : Q l s → o.step l s = .done r s' → P s'
  crash {l : Loc} {s : σ} : Q l s → o.step l s ≠ .crash

/-- The value as the holder, or nobody, left it. -/
structure SafeInv (P : σ → Prop) (Q : Loc → σ → Prop) (s : State σ Op Loc Res ι) : Prop where
  poisoned : s.poisoned = false
  inside : ∀ i op l, s.pc i = .inside op l → Q l s.shared
  outside : (∀ i op l, s.pc i ≠ .inside op l) → P s.shared

section

variable {A : Op → Prop} {P : σ → Prop} {Q : Loc → σ → Prop}

theorem SafeInv.of_outside (h : SafeInv P Q s) {i : ι} {p : Pc Op Loc Res}
    (hi : ∀ op l, s.pc i ≠ .inside op l) (hp : ∀ op l, p ≠ .inside op l) (holder : Option ι)
    (hist : List (Event ι Op Res)) :
    SafeInv P Q { s with pc := Function.update s.pc i p, holder, hist } where
  poisoned := h.poisoned
  inside j op l hj := by
    by_cases hji : j = i
    · subst hji
      exact absurd ((Function.update_self ..).symm.trans hj) (hp op l)
    · exact h.inside j op l ((Function.update_of_ne hji ..).symm.trans hj)
  outside hn := by
    refine h.outside fun j op l hj => ?_
    by_cases hji : j = i
    · exact hi op l (hji ▸ hj)
    · exact hn j op l ((Function.update_of_ne hji ..).trans hj)

theorem Inv.eq_of_inside (hi : Inv o init s) {i j : ι} (h : (s.pc i).locked = true)
    (hj : (s.pc j).locked = true) : i = j :=
  Option.some.inj (((hi.holder i).mpr h).symm.trans ((hi.holder j).mpr hj))

theorem Step.subset_hist (h : Step o s s') : s.hist ⊆ s'.hist := by
  cases h with
  | call | early | point | ret => exact List.subset_append_left _ _
  | lock | refused | next | crash | unlock => exact List.Subset.refl _

theorem Inv.call_mem (hi : Inv o init s) {i : ι} {op : Op} (h : s.pc i = .called op) :
    .call i op ∈ s.hist := by
  obtain ⟨es, -, he⟩ := hi.trails i
  have hmem : .call i op ∈ eventsOf i s.hist := by
    rw [he, h]
    simp [Pc.trail]
  exact List.mem_of_mem_filter hmem

theorem Safe.step (hs : Safe o A P Q) (hi : Inv o init s) (hA : ∀ i op, .call i op ∈ s.hist → A op)
    (h : SafeInv P Q s) (hst : Step o s s') : SafeInv P Q s' := by
  cases hst with
  | call i op hpc => exact h.of_outside (by simp [hpc]) (by simp) _ _
  | early i hpc => exact h.of_outside (by simp [hpc]) (by simp) _ _
  | refused i hpc => exact h.of_outside (by simp [hpc]) (by simp) _ _
  | unlock i hpc => exact h.of_outside (by simp [hpc]) (by simp) _ _
  | ret i hpc => exact h.of_outside (by simp [hpc]) (by simp) _ _
  | @lock i op l hpc he hfree =>
    have hnone : ∀ j, (s.pc j).locked = true → False := by
      intro j hj
      cases hfree.symm.trans ((hi.holder j).mpr hj)
    have hP : P s.shared := h.outside fun j op' l' hj => hnone j (by rw [hj]; rfl)
    refine ⟨h.poisoned, fun j op' l' hj => ?_, fun hn => ?_⟩
    · by_cases hji : j = i
      · subst hji
        cases (Function.update_self ..).symm.trans hj
        exact hs.enter (hA j op (hi.call_mem hpc)) he hP
      · have hj' := (Function.update_of_ne hji ..).symm.trans hj
        exact (hnone j (by rw [hj']; rfl)).elim
    · exact absurd (Function.update_self ..) (hn i op l)
  | @next i op l l' t hpc hst =>
    refine ⟨h.poisoned, fun j op' l₁ hj => ?_, fun hn => ?_⟩
    · by_cases hji : j = i
      · subst hji
        cases (Function.update_self ..).symm.trans hj
        exact hs.next (h.inside j _ _ hpc) hst
      · have hj' := (Function.update_of_ne hji ..).symm.trans hj
        exact absurd (hi.eq_of_inside (by rw [hj']; rfl) (by rw [hpc]; rfl)) hji
    · exact absurd (Function.update_self ..) (hn i op l')
  | @point i op l r t hpc hst =>
    refine ⟨h.poisoned, fun j op' l₁ hj => ?_, fun _ => hs.done (h.inside i _ _ hpc) hst⟩
    by_cases hji : j = i
    · subst hji
      cases (Function.update_self ..).symm.trans hj
    · have hj' := (Function.update_of_ne hji ..).symm.trans hj
      exact absurd (hi.eq_of_inside (by rw [hj']; rfl) (by rw [hpc]; rfl)) hji
  | crash i hpc hst => exact absurd hst (hs.crash (h.inside i _ _ hpc))

/-- A safe object is poisoned only where an operation was called that is not `A`. -/
theorem Safe.exists_call (hs : Safe o A P Q) (h₀ : P init)
    (h : Runs.Reachable (Init init) (Step o) s) (hp : s.poisoned = true) :
    ∃ i op, .call i op ∈ s.hist ∧ ¬ A op := by
  by_contra hnone
  have hA : ∀ i op, .call i op ∈ s.hist → A op := fun i op hmem =>
    by_contra fun hop => hnone ⟨i, op, hmem, hop⟩
  have hsafe : (∀ i op, .call i op ∈ s.hist → A op) → SafeInv P Q s := by
    refine h.invariant_of (fun _ => inv_of_reachable)
      (fun s => (∀ i op, .call i op ∈ s.hist → A op) → SafeInv P Q s) (fun s hinit _ => ?_)
      fun s t hi _ ih hst hA => ?_
    · obtain ⟨hshared, -, hpoisoned, hpc, -⟩ := hinit
      exact ⟨hpoisoned, fun i op l hi => (by cases (hpc i).symm.trans hi), fun _ => hshared ▸ h₀⟩
    · have hA' : ∀ i op, .call i op ∈ s.hist → A op :=
        fun i op hmem => hA i op (hst.subset_hist hmem)
      exact hs.step hi hA' (ih hA') hst
  cases hp.symm.trans (hsafe hA).poisoned

end

end Guarded
