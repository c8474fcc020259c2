/-
Computations that can panic: overflow of a checked addition, an index out of
range, a failed assertion.

A panic ends the computation, so `Except` carries it; `bind_eq_ok` peels a
run that did not panic into its parts, one step at a time, and `mapM_ok_iff`
a list of them.
-/
import Mathlib.Tactic.Ring

/-- Why a computation stopped. -/
inductive Panic
  /-- An addition or subtraction left the range of its type. -/
  | overflow
  /-- An integer division by zero. -/
  | divByZero
  /-- An index outside its slice. -/
  | outOfBounds
  /-- A failed `assert!`, `expect` or precondition. -/
  | assertion
  deriving DecidableEq, Repr

/-- A computation that returns or panics. -/
abbrev Checked (α : Type) := Except Panic α

namespace Checked

theorem bind_eq_ok {ε α β : Type} {x : Except ε α} {f : α → Except ε β} {b : β} :
    (x >>= f) = .ok b ↔ ∃ a, x = .ok a ∧ f a = .ok b := by
  rcases x with e | a
  · exact iff_of_false (fun h => nomatch h) (fun ⟨_, h, _⟩ => nomatch h)
  · exact ⟨fun h => ⟨a, rfl, h⟩, fun ⟨_, h, hf⟩ => by cases h; exact hf⟩

theorem pure_eq_ok {ε α : Type} {a b : α} : (pure a : Except ε α) = .ok b ↔ a = b := by
  simp [pure, Except.pure]

@[simp] theorem ok_bind {ε α β : Type} (a : α) (f : α → Except ε β) :
    ((.ok a : Except ε α) >>= f) = f a := rfl

/-! ## Computations one after the other -/

theorem forall₂_of_mapM {α β : Type} {f : α → Checked β} {P : α → β → Prop} {as : List α}
    {bs : List β} (h : as.mapM f = .ok bs) (hP : ∀ a ∈ as, ∀ {b}, f a = .ok b → P a b) :
    List.Forall₂ P as bs := by
  induction as generalizing bs with
  | nil =>
    cases h
    exact .nil
  | cons a as ih =>
    rw [List.mapM_cons] at h
    simp only [bind_eq_ok, pure_eq_ok] at h
    obtain ⟨b, hb, bs', hbs, rfl⟩ := h
    exact .cons (hP a List.mem_cons_self hb)
      (ih hbs fun a' ha' => hP a' (List.mem_cons_of_mem a ha'))

/-- They return exactly when each of them alone does. -/
theorem mapM_ok_iff {α β : Type} {f : α → Checked β} {as : List α} :
    (∃ bs, as.mapM f = .ok bs) ↔ ∀ a ∈ as, ∃ b, f a = .ok b := by
  induction as with
  | nil => exact iff_of_true ⟨[], rfl⟩ (by simp)
  | cons a as ih =>
    rw [List.forall_mem_cons, ← ih, List.mapM_cons]
    simp only [bind_eq_ok, pure_eq_ok]
    constructor
    · rintro ⟨_, b, hb, bs, hbs, -⟩
      exact ⟨⟨b, hb⟩, bs, hbs⟩
    · rintro ⟨⟨b, hb⟩, bs, hbs⟩
      exact ⟨b :: bs, b, hb, bs, hbs, rfl⟩

/-! ## Machine words -/

/-- Addition in a `w`-bit unsigned type. -/
def add (w a b : Nat) : Checked Nat :=
  if a + b < 2 ^ w then .ok (a + b) else .error .overflow

theorem add_of_lt {w a b : Nat} (h : a + b < 2 ^ w) : add w a b = .ok (a + b) := if_pos h

/-- Multiplication in a `w`-bit unsigned type. -/
def mul (w a b : Nat) : Checked Nat :=
  if a * b < 2 ^ w then .ok (a * b) else .error .overflow

theorem mul_of_lt {w a b : Nat} (h : a * b < 2 ^ w) : mul w a b = .ok (a * b) := if_pos h

/-- Subtraction in an unsigned type. -/
def sub (a b : Nat) : Checked Nat :=
  if b ≤ a then .ok (a - b) else .error .overflow

theorem sub_of_le {a b : Nat} (h : b ≤ a) : sub a b = .ok (a - b) := if_pos h

/-- `a + b` on 64-bit words. -/
def addU64 (a b : UInt64) : Checked UInt64 :=
  if a.toNat + b.toNat < 2 ^ 64 then .ok (a + b) else .error .overflow

theorem addU64_of_lt {a b : UInt64} (h : a.toNat + b.toNat < 2 ^ 64) :
    addU64 a b = .ok (a + b) := if_pos h

theorem addU64_eq_ok {a b c : UInt64} (h : addU64 a b = .ok c) : c.toNat = a.toNat + b.toNat := by
  unfold addU64 at h
  split at h
  · next hlt =>
    cases h
    rw [UInt64.toNat_add, Nat.mod_eq_of_lt hlt]
  · cases h

/-- `a + b` on 32-bit words. -/
def addU32 (a b : UInt32) : Checked UInt32 :=
  if a.toNat + b.toNat < 2 ^ 32 then .ok (a + b) else .error .overflow

theorem addU32_eq_ok {a b c : UInt32} (h : addU32 a b = .ok c) : c.toNat = a.toNat + b.toNat := by
  unfold addU32 at h
  split at h
  · next hlt =>
    cases h
    rw [UInt32.toNat_add, Nat.mod_eq_of_lt hlt]
  · cases h

/-- `a - b` on 64-bit words. -/
def subU64 (a b : UInt64) : Checked UInt64 :=
  if b ≤ a then .ok (a - b) else .error .overflow

theorem subU64_of_le {a b : UInt64} (h : b ≤ a) : subU64 a b = .ok (a - b) := if_pos h

/-- The smaller of two 64-bit words. -/
def minU64 (a b : UInt64) : UInt64 := if a ≤ b then a else b

theorem toNat_minU64 (a b : UInt64) : (minU64 a b).toNat = min a.toNat b.toNat := by
  unfold minU64
  split
  · next h => rw [UInt64.le_iff_toNat_le] at h; omega
  · next h => rw [UInt64.le_iff_toNat_le] at h; omega

end Checked
