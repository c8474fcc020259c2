/-
Keys by recency: a bounded list of the keys used last.

A history of uses, the latest first, has each key once in order of its last
use (`recent`). A list of at most `cap` keys that moves each key used to the
front and drops what is over (`touch`) holds the first `cap` of them, whatever
the history (`touch_take_recent`).
-/
import Mathlib.Data.List.Dedup

namespace Recency

variable {κ : Type*} [DecidableEq κ]

/-- The keys of a history, the latest use first. -/
def recent : List κ → List κ
  | [] => []
  | k :: h => k :: (recent h).erase k

/-- A key used: to the front, and the list cut to `cap`. -/
def touch (cap : Nat) (k : κ) (ks : List κ) : List κ := (k :: ks.erase k).take cap

theorem nodup_recent (h : List κ) : (recent h).Nodup := by
  induction h with
  | nil => exact List.nodup_nil
  | cons k h ih => exact List.nodup_cons.mpr ⟨ih.not_mem_erase, ih.erase k⟩

theorem mem_recent {h : List κ} {k : κ} : k ∈ recent h ↔ k ∈ h := by
  induction h with
  | nil => rfl
  | cons a h ih =>
    by_cases he : k = a
    · simp [recent, he]
    · rw [recent, List.mem_cons, List.mem_erase_of_ne he, ih, List.mem_cons]

/-- As many keys as there are distinct ones in the history. -/
theorem length_recent (h : List κ) : (recent h).length = h.dedup.length :=
  ((List.perm_ext_iff_of_nodup (nodup_recent h) h.nodup_dedup).mpr fun k => by
    rw [mem_recent, List.mem_dedup]).length_eq

theorem take_erase_take (n : Nat) (k : κ) (ks : List κ) :
    ((ks.take (n + 1)).erase k).take n = (ks.erase k).take n := by
  induction ks generalizing n with
  | nil => rfl
  | cons a ks ih =>
    rw [List.take_succ_cons]
    by_cases he : a = k
    · subst he
      rw [List.erase_cons_head, List.erase_cons_head, List.take_take, Nat.min_self]
    · rw [List.erase_cons_tail (by simpa using he), List.erase_cons_tail (by simpa using he)]
      cases n with
      | zero => rfl
      | succ n => rw [List.take_succ_cons, List.take_succ_cons, ih]

/-- The bounded list holds the keys used last. -/
theorem touch_take_recent (cap : Nat) (k : κ) (h : List κ) :
    touch cap k ((recent h).take cap) = (recent (k :: h)).take cap := by
  cases cap with
  | zero => rfl
  | succ n => rw [touch, recent, List.take_succ_cons, List.take_succ_cons, take_erase_take]

end Recency
