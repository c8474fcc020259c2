/-
A list cut into pieces of `n` elements, the last possibly shorter
(`slice::chunks`).

`chunks_flatten` and `chunks_flatten_eq` are the two directions: the pieces
make up the list, and pieces of the right sizes are what the list is cut into.
-/
import Mathlib.Data.List.Basic

namespace Chunks

variable {α : Type*}

/-- At most `fuel` pieces. -/
def chunksFrom (n : Nat) : Nat → List α → List (List α)
  | 0, _ => []
  | _, [] => []
  | fuel + 1, x :: l => (x :: l).take n :: chunksFrom n fuel ((x :: l).drop n)

/-- The pieces of `l`, each of `n` elements but the last. -/
def chunks (n : Nat) (l : List α) : List (List α) := chunksFrom n l.length l

theorem chunksFrom_nil (n fuel : Nat) : chunksFrom n fuel ([] : List α) = [] := by
  cases fuel <;> rfl

theorem chunksFrom_of_le {n : Nat} (hn : 0 < n) {fuel : Nat} {l : List α} (h : l.length ≤ fuel) :
    chunksFrom n fuel l = chunks n l := by
  unfold chunks
  -- Both fuels shrink by one with each piece, and stay above the length.
  have key : ∀ f g (l : List α), l.length ≤ f → l.length ≤ g →
      chunksFrom n f l = chunksFrom n g l := by
    intro f
    induction f with
    | zero =>
      intro g l hf _
      rw [List.eq_nil_of_length_eq_zero (Nat.le_zero.mp hf), chunksFrom_nil, chunksFrom_nil]
    | succ f ih =>
      intro g l hf hg
      cases l with
      | nil => rw [chunksFrom_nil, chunksFrom_nil]
      | cons x l =>
        cases g with
        | zero => cases hg
        | succ g =>
          simp only [List.length_cons] at hf hg
          have hdrop : ((x :: l).drop n).length ≤ l.length := by
            rw [List.length_drop, List.length_cons]
            omega
          simp only [chunksFrom]
          rw [ih g _ (by omega) (by omega)]
  exact key _ _ _ h (Nat.le_refl _)

@[simp] theorem chunks_nil (n : Nat) : chunks n ([] : List α) = [] := rfl

theorem chunks_of_ne_nil {n : Nat} (hn : 0 < n) {l : List α} (h : l ≠ []) :
    chunks n l = l.take n :: chunks n (l.drop n) := by
  cases l with
  | nil => exact absurd rfl h
  | cons x l =>
    have hdrop : ((x :: l).drop n).length ≤ l.length := by
      rw [List.length_drop, List.length_cons]
      omega
    rw [← chunksFrom_of_le hn hdrop]
    rfl

theorem chunks_append {n : Nat} (hn : 0 < n) {c : List α} (hc : c.length = n) (l : List α) :
    chunks n (c ++ l) = c :: chunks n l := by
  have hne : c ++ l ≠ [] := by
    intro h
    rw [(List.append_eq_nil_iff.mp h).1] at hc
    exact absurd hc (Nat.ne_of_lt hn)
  rw [chunks_of_ne_nil hn hne, List.take_left' hc, List.drop_left' hc]

theorem chunks_of_length_le {n : Nat} {l : List α} (h : l ≠ []) (hle : l.length ≤ n) :
    chunks n l = [l] := by
  have hn : 0 < n := Nat.lt_of_lt_of_le (List.length_pos_iff.mpr h) hle
  rw [chunks_of_ne_nil hn h, List.take_of_length_le hle, List.drop_of_length_le hle, chunks_nil]

/-- Induction over the pieces of a list. -/
theorem chunks_induction {n : Nat} (hn : 0 < n) {P : List α → Prop} (nil : P [])
    (step : ∀ l, l ≠ [] → P (l.drop n) → P l) (l : List α) : P l := by
  induction hlen : l.length using Nat.strongRecOn generalizing l with
  | ind k ih =>
    by_cases h : l = []
    · rw [h]
      exact nil
    · refine step l h (ih _ ?_ _ rfl)
      have := List.length_pos_iff.mpr h
      rw [List.length_drop]
      omega

theorem chunks_flatten {n : Nat} (hn : 0 < n) (l : List α) : (chunks n l).flatten = l := by
  induction l using chunks_induction hn with
  | nil => rfl
  | step l h ih => rw [chunks_of_ne_nil hn h, List.flatten_cons, ih, List.take_append_drop]

theorem ne_nil_of_mem_chunks {n : Nat} (hn : 0 < n) {l c : List α} (h : c ∈ chunks n l) :
    c ≠ [] := by
  induction l using chunks_induction hn with
  | nil => cases h
  | step l hl ih =>
    rw [chunks_of_ne_nil hn hl, List.mem_cons] at h
    rcases h with rfl | h
    · exact fun he => (List.take_eq_nil_iff.mp he).elim (fun h => absurd h (Nat.ne_of_gt hn)) hl
    · exact ih h

theorem length_le_of_mem_chunks {n : Nat} (hn : 0 < n) {l c : List α} (h : c ∈ chunks n l) :
    c.length ≤ n := by
  induction l using chunks_induction hn with
  | nil => cases h
  | step l hl ih =>
    rw [chunks_of_ne_nil hn hl, List.mem_cons] at h
    rcases h with rfl | h
    · exact List.length_take_le _ _
    · exact ih h

/-- Pieces of `n` elements and a last one that is not longer. -/
theorem chunks_flatten_eq {n : Nat} (hn : 0 < n) {cs : List (List α)}
    (hlen : ∀ c ∈ cs.dropLast, c.length = n) (hne : ∀ c ∈ cs, c ≠ [])
    (hlast : ∀ c ∈ cs, c.length ≤ n) : chunks n cs.flatten = cs := by
  induction cs with
  | nil => rfl
  | cons c cs ih =>
    cases cs with
    | nil => simpa using chunks_of_length_le (hne c List.mem_cons_self) (hlast c List.mem_cons_self)
    | cons d cs =>
      rw [List.flatten_cons, chunks_append hn (hlen c List.mem_cons_self), ih]
      · exact fun x hx => hlen x (List.mem_cons_of_mem _ hx)
      · exact fun x hx => hne x (List.mem_cons_of_mem _ hx)
      · exact fun x hx => hlast x (List.mem_cons_of_mem _ hx)

theorem chunks_drop_take {n : Nat} (hn : 0 < n) (l : List α) (k : Nat) :
    chunks n (l.drop ((chunks n l).take k).flatten.length) = (chunks n l).drop k := by
  induction k generalizing l with
  | zero => simp
  | succ k ih =>
    by_cases h : l = []
    · simp [h]
    · rw [chunks_of_ne_nil hn h, List.take_succ_cons, List.flatten_cons, List.length_append,
        ← List.drop_drop, List.drop_succ_cons]
      by_cases hle : l.length ≤ n
      · simp [List.drop_of_length_le hle, List.take_of_length_le hle]
      · rw [List.length_take_of_le (by omega)]
        exact ih _

end Chunks
