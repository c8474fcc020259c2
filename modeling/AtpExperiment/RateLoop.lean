/-
The controller on a bottleneck, in three numbers.

Between the pacer and a path of one capacity only three numbers matter after
startup: the load (the capacity in units of the pacing rate), and the smoothed loss
and the floor above the loss the path has by itself. A report moves them by a
piecewise linear map (`Tick`). `Near` is an invariant of it: after a cut the loss
drains while the rate is held (`Drains`), and then the rate climbs (`Climbs`) until
the next cut. In a climb the floor rises by less than the load falls, and what it
rises by is lost again in the drain; so it never follows congestive loss, and the
rate stays near the capacity.
-/
import Mathlib.Algebra.Order.Field.Rat
import Mathlib.Tactic.Linarith
import Mathlib.Tactic.NormNum
import Mathlib.Tactic.Ring

namespace AtpExperiment

/-- The load, the smoothed loss and the floor above the path's own loss, and the
cooldown. -/
structure Gauge where
  load : ℚ
  loss : ℚ
  floor : ℚ
  cooldown : Nat

namespace Gauge

variable {q ρ : ℚ} {g g' : Gauge}

/-! ## A report -/

/-- How the floor follows the loss `a`: held in a cooldown, relaxed towards a higher
loss, and tracking a lower one down. -/
inductive Tracks (cooldown : Nat) (ρ b a : ℚ) : ℚ → Prop
  | held (h : b ≤ a) (hc : 0 < cooldown) : Tracks cooldown ρ b a b
  | relaxed (h : b ≤ a) (hc : cooldown = 0) : Tracks cooldown ρ b a (b + ρ * min (a - b) (1 / 20))
  | fell (h : a < b) : Tracks cooldown ρ b a (b + 3 / 10 * (a - b))

/-- The floor stays below a higher loss and rises by a twentieth of `ρ` at most; or it
falls by three tenths of the difference. -/
theorem Tracks.spec {k : Nat} {b a b' : ℚ} (h : Tracks k ρ b a b') (h₀ : 0 ≤ ρ) (h₁ : ρ ≤ 1) :
    (b ≤ a ∧ b ≤ b' ∧ b' ≤ a ∧ b' ≤ b + ρ / 20 ∧ (0 < k → b' = b)) ∨
      (a < b ∧ b' = 7 / 10 * b + 3 / 10 * a) := by
  cases h with
  | held h hc => exact .inl ⟨h, le_rfl, h, by linarith, fun _ => rfl⟩
  | relaxed h hc =>
    have hmin : 0 ≤ min (a - b) (1 / 20) := le_min (by linarith) (by norm_num)
    have hle : ρ * min (a - b) (1 / 20) ≤ 1 * min (a - b) (1 / 20) :=
      mul_le_mul_of_nonneg_right h₁ hmin
    have hle' : ρ * min (a - b) (1 / 20) ≤ ρ * (1 / 20) :=
      mul_le_mul_of_nonneg_left (min_le_right _ _) h₀
    have hnonneg := mul_nonneg h₀ hmin
    refine .inl ⟨h, by linarith, ?_, by linarith, fun hk => absurd hc hk.ne'⟩
    linarith [min_le_left (a - b) (1 / 20)]
  | fell h => exact .inr ⟨h, by ring⟩

/-- What a report measures: the loss over the capacity, within a thousandth, smoothed;
`ρ` is how far the floor is relaxed. -/
structure Senses (q ρ : ℚ) (g : Gauge) (loss floor : ℚ) : Prop where
  low : 7 / 10 * g.loss + 3 / 10 * (max 0 (q - g.load) - 1 / 1000) ≤ loss
  high : loss ≤ 7 / 10 * g.loss + 3 / 10 * (max 0 (q - g.load) + 1 / 1000)
  floor : Tracks g.cooldown ρ g.floor loss floor

/-- A report after startup, that shares `q` of what is under the capacity pass. A cut
from above the capacity lands close to what was delivered, or a tenth below the rate. -/
inductive Tick (q : ℚ) (g : Gauge) : Gauge → Prop
  | cool {ρ loss floor : ℚ} (h₀ : 0 ≤ ρ) (h₁ : ρ ≤ 1 / 50) (h : Senses q ρ g loss floor)
    (hc : 0 < g.cooldown) : Tick q g ⟨g.load, loss, floor, g.cooldown - 1⟩
  | cut {ρ load loss floor : ℚ} (h₀ : 0 ≤ ρ) (h₁ : ρ ≤ 1 / 50) (h : Senses q ρ g loss floor)
    (hc : g.cooldown = 0) (hx : 1 / 20 ≤ loss - floor)
    (hl : g.load ≤ q → 998 / 1000 ≤ load ∧ 898 / 1000 * load ≤ q) :
    Tick q g ⟨load, loss, floor, 3⟩
  | slow {ρ loss floor : ℚ} (h₀ : 0 ≤ ρ) (h₁ : ρ ≤ 1 / 50) (h : Senses q ρ g loss floor)
    (hc : g.cooldown = 0) (hx : loss - floor < 1 / 20) :
    Tick q g ⟨g.load / (101 / 100), loss, floor, 0⟩
  | steady {ρ loss floor : ℚ} (h₀ : 0 ≤ ρ) (h₁ : ρ ≤ 1 / 50) (h : Senses q ρ g loss floor)
    (hc : g.cooldown = 0) (hx : loss - floor < 1 / 20)
    (hanchor : q - floor < 1002 / 1000 * g.load) :
    Tick q g ⟨g.load / (105 / 100), loss, floor, 0⟩

/-- Loss and floor are averages of what was measured, so not below the path's own
loss by more than the tolerance. -/
structure Low (g : Gauge) : Prop where
  loss : -1 / 1000 ≤ g.loss
  floor : -1 / 1000 ≤ g.floor

theorem Senses.low' {loss floor load : ℚ} {k : Nat} (h : Senses q ρ g loss floor) (hg : g.Low)
    (h₀ : 0 ≤ ρ) (h₁ : ρ ≤ 1) : Low ⟨load, loss, floor, k⟩ := by
  have hx := le_max_left 0 (q - g.load)
  have hl := h.low
  have hg₁ := hg.loss
  have hg₂ := hg.floor
  have hloss : -1 / 1000 ≤ loss := by linarith
  refine ⟨hloss, ?_⟩
  rcases h.floor.spec h₀ h₁ with ⟨-, hle, -⟩ | ⟨-, he⟩
  · exact hg₂.trans hle
  · show -1 / 1000 ≤ floor
    linarith

/-! ## The drain after a cut -/

/-- Bounds on the floor, on the loss, and on how far the loss is below the floor. -/
structure Envelope where
  floor : ℚ
  slope : ℚ
  sum : ℚ
  gap : ℚ

/-- The bounds a report later, where nothing above the path's own loss is lost. -/
def Envelope.next (E : Envelope) : Envelope where
  slope := 7 / 10 * E.slope
  sum := 7 / 10 * E.sum + 9 / 10000
  floor := min E.floor (max ((7 / 10 * E.sum + 9 / 10000) / (1 + 7 / 10 * E.slope))
    ((7 / 10 - 3 / 10 * (7 / 10 * E.slope)) * E.floor + 3 / 10 * (7 / 10 * E.sum + 9 / 10000)))
  gap := max 0 (7 / 10 * (3 / 10 * E.floor + 7 / 10 * E.gap + 3 / 10000))

/-- Within the bounds. -/
structure Within (E : Envelope) (g : Gauge) : Prop where
  floor : g.floor ≤ E.floor
  sum : g.loss + E.slope * g.floor ≤ E.sum
  gap : g.floor - g.loss ≤ E.gap

/-- At or below what was delivered, and not far below. -/
structure Held (q : ℚ) (g : Gauge) : Prop where
  low : g.Low
  load_ge : 998 / 1000 ≤ g.load
  load_le : 898 / 1000 * g.load ≤ q

theorem Held.over_le (hg : g.Held q) (hq : q ≤ 1) : max 0 (q - g.load) ≤ 2 / 1000 :=
  max_le (by norm_num) (by linarith [hg.load_ge])

/-- While the rate is held the loss drains, and the floor with it. -/
theorem Within.next {E : Envelope} (hs : 0 ≤ E.slope) (hs' : E.slope ≤ 1) (hq : q ≤ 1)
    (hg : g.Held q) (h : g.Within E) {loss floor load : ℚ} {k : Nat} (h₀ : 0 ≤ ρ) (h₁ : ρ ≤ 1)
    (hsense : Senses q ρ g loss floor) (hcool : 0 < g.cooldown) :
    Within E.next ⟨load, loss, floor, k⟩ := by
  have hover := hg.over_le hq
  have hover₀ := le_max_left 0 (q - g.load)
  have hlow := hsense.low
  have hhigh := hsense.high
  have hb := h.floor
  have hsum := h.sum
  have hgap := h.gap
  have hsum' : loss + 7 / 10 * E.slope * g.floor ≤ 7 / 10 * E.sum + 9 / 10000 := by linarith
  rcases hsense.floor.spec h₀ h₁ with ⟨hle, -, -, -, he⟩ | ⟨hlt, he⟩
  · obtain rfl := he hcool
    refine ⟨le_min hb (le_max_of_le_left ?_), hsum', le_max_of_le_left (by simpa using hle)⟩
    rw [le_div_iff₀ (by linarith)]
    simp only
    linarith
  · have hmul : (7 / 10 - 3 / 10 * (7 / 10 * E.slope)) * g.floor ≤
        (7 / 10 - 3 / 10 * (7 / 10 * E.slope)) * E.floor :=
      mul_le_mul_of_nonneg_left hb (by linarith)
    have hfall : floor ≤ g.floor := by linarith
    have hslope : 7 / 10 * E.slope * floor ≤ 7 / 10 * E.slope * g.floor :=
      mul_le_mul_of_nonneg_left hfall (by linarith)
    refine ⟨le_min (hfall.trans hb) (le_max_of_le_right ?_), ?_, le_max_of_le_right ?_⟩
    · simp only
      linarith
    · simp only [Envelope.next]
      linarith
    · simp only
      linarith

/-- The bounds right after a cut. -/
def afterCut : Envelope := ⟨9 / 100, 2 / 5, 194 / 1000, -35 / 1000⟩

/-- After a cut, with `k` reports of the cooldown to come. -/
structure Drains (q : ℚ) (k : Nat) (g : Gauge) : Prop where
  held : g.Held q
  within : g.Within (Envelope.next^[3 - k] afterCut)
  cooldown : g.cooldown = k

/-! ## The climb -/

/-- Growing again. The rate has been just above what the floor allows for, or the loss
has followed it (`lag`); the floor has risen by less than a fifth of what the load fell
by since it was at the floor (`floor`), and before that the loss was small (`below`). -/
structure Climbs (q : ℚ) (g : Gauge) : Prop where
  cooldown : g.cooldown = 0
  low : g.Low
  pos : 0 < g.load
  load_le : 898 / 1000 * g.load ≤ q
  excess : g.loss - g.floor ≤ 1 / 20
  lag : q - g.load - (65 / 100 * g.loss + 35 / 100 * g.floor) ≤ 75 / 1000
  floor : g.floor ≤ 67 / 1000 ∨
    g.floor + 17 / 100 * (g.floor - 2 / 100 - (q - g.load)) ≤ 67 / 1000
  below : q - g.load < g.floor - 2 / 100 → g.loss ≤ 5 / 100
  gap : g.floor - g.loss ≤ 37 / 1000

theorem Climbs.over_le (hg : g.Climbs q) : q - g.load ≤ 197 / 1000 := by
  have h₁ := hg.excess
  have h₂ := hg.lag
  rcases hg.floor with h | h <;> linarith

/-- A cut is from above the capacity. -/
theorem Climbs.over_of_cut (hg : g.Climbs q) {loss floor : ℚ} (h₀ : 0 ≤ ρ) (h₁ : ρ ≤ 1 / 50)
    (hsense : Senses q ρ g loss floor) (hx : 1 / 20 ≤ loss - floor) : g.load < q := by
  by_contra hge
  have hover : max 0 (q - g.load) = 0 := max_eq_left (by linarith)
  have hhigh := hsense.high
  rw [hover] at hhigh
  have hx' := hg.excess
  have hlow := hg.low.floor
  rcases hsense.floor.spec h₀ (by linarith) with ⟨-, hle, -⟩ | ⟨hlt, he⟩ <;> linarith

theorem Climbs.cut (hg : g.Climbs q) {load loss floor : ℚ}
    (h₀ : 0 ≤ ρ) (h₁ : ρ ≤ 1 / 50) (hsense : Senses q ρ g loss floor)
    (hx : 1 / 20 ≤ loss - floor)
    (hl : g.load ≤ q → 998 / 1000 ≤ load ∧ 898 / 1000 * load ≤ q) :
    Drains q 3 ⟨load, loss, floor, 3⟩ := by
  have hlt := hg.over_of_cut h₀ h₁ hsense hx
  obtain ⟨hge, hle⟩ := hl hlt.le
  have hover : max 0 (q - g.load) = q - g.load := max_eq_right (by linarith)
  have hhigh := hsense.high
  rw [hover] at hhigh
  have h₂ := hg.excess
  have h₃ := hg.lag
  have h₄ := hg.over_le
  have h₅ := hg.low.floor
  rcases hsense.floor.spec h₀ (by linarith) with ⟨-, hfl, -, hfu, -⟩ | ⟨hlt, he⟩
  · refine ⟨⟨hsense.low' hg.low h₀ (by linarith), hge, hle⟩, ⟨?_, ?_, ?_⟩, rfl⟩
    · show floor ≤ 9 / 100
      rcases hg.floor with h | h <;> linarith
    · show loss + 2 / 5 * floor ≤ 194 / 1000
      rcases hg.floor with h | h <;> linarith
    · show floor - loss ≤ -35 / 1000
      linarith
  · linarith

/-- What no growth changes, given how far the load fell: by a hundredth of itself at
least, and not further than just above what the floor allows for, or by a hundredth of
itself. -/
theorem Climbs.grow (hq : 9 / 10 ≤ q) (hq1 : q ≤ 1) (hg : g.Climbs q) {load loss floor : ℚ}
    (h₀ : 0 ≤ ρ) (h₁ : ρ ≤ 1 / 50) (hsense : Senses q ρ g loss floor)
    (hx : loss - floor < 1 / 20) (hpos : 0 < load) (hload : 101 / 100 * load ≤ g.load)
    (hfast : 101 / 100 * load = g.load ∨
      105 / 100 * load = g.load ∧ q - floor < 1002 / 1000 * g.load) :
    Climbs q ⟨load, loss, floor, 0⟩ := by
  have hover := le_max_left 0 (q - g.load)
  have hover' := le_max_right 0 (q - g.load)
  have hlow := hsense.low
  have hhigh := hsense.high
  have g₁ := hg.excess
  have g₂ := hg.lag
  have g₃ := hg.load_le
  have g₄ := hg.gap
  have g₅ := hg.over_le
  have g₆ := hg.low.floor
  have g₇ := hg.low.loss
  have hl : Low ⟨load, loss, floor, 0⟩ := hsense.low' hg.low h₀ (by linarith)
  have hl₁ : -1 / 1000 ≤ loss := hl.loss
  have hl₂ : -1 / 1000 ≤ floor := hl.floor
  have htrack := hsense.floor.spec h₀ (by linarith)
  have hgap : floor - loss ≤ 37 / 1000 := by
    rcases htrack with ⟨-, -, hle, -⟩ | ⟨hlt, he⟩
    · linarith
    · by_cases hbelow : q - g.load < g.floor - 2 / 100
      · linarith [hg.below hbelow]
      · linarith
  have hmono : q - load < floor - 2 / 100 → q - g.load < g.floor - 2 / 100 := by
    intro h
    rcases htrack with ⟨-, hle, -, hle', -⟩ | ⟨hlt, he⟩ <;> linarith
  -- Below what the floor allows for the loss is small, and so is the floor.
  have hsmall : q - g.load < g.floor - 2 / 100 → g.floor ≤ 67 / 1000 ∧ loss ≤ 5 / 100 := by
    intro hbelow
    have hfloor : g.floor ≤ 67 / 1000 := by rcases hg.floor with h | h <;> linarith
    have hmax : max 0 (q - g.load) ≤ 47 / 1000 := max_le (by norm_num) (by linarith)
    exact ⟨hfloor, by linarith [hg.below hbelow]⟩
  refine ⟨rfl, hl, hpos, by simp only; linarith, by simp only; linarith, ?_, ?_, ?_, hgap⟩
  · simp only
    rcases hfast with hslow | ⟨hfast, hanchor⟩
    · rcases htrack with ⟨-, hle, -⟩ | ⟨hlt, he⟩ <;> linarith
    · linarith
  · simp only
    by_cases hbelow : q - g.load < g.floor - 2 / 100
    · obtain ⟨hfloor, hloss⟩ := hsmall hbelow
      left
      rcases htrack with ⟨-, -, hle, -⟩ | ⟨hlt, he⟩ <;> linarith
    · -- What the floor rises by is at most `17 / 100` of what the load falls by.
      right
      have hV : g.floor + 17 / 100 * (g.floor - 2 / 100 - (q - g.load)) ≤ 67 / 1000 := by
        rcases hg.floor with h | h <;> linarith
      rcases htrack with ⟨-, -, -, hle, -⟩ | ⟨hlt, he⟩ <;> linarith
  · exact fun h => (hsmall (hmono h)).2

section Drained

variable {loss floor : ℚ} (hg : g.Drains q 0) (hq1 : q ≤ 1) (h₀ : 0 ≤ ρ) (h₁ : ρ ≤ 1 / 50)
  (hsense : Senses q ρ g loss floor)

include hg hq1 h₀ h₁ hsense

theorem Drains.drained : loss - floor < 1 / 20 ∧ loss ≤ 5 / 100 ∧ floor ≤ 67 / 1000 ∧
    floor - loss ≤ 37 / 1000 := by
  have hover := hg.held.over_le hq1
  have hover₀ := le_max_left 0 (q - g.load)
  have hlow := hsense.low
  have hhigh := hsense.high
  have hl := hg.held.low.loss
  have hf := hg.held.low.floor
  obtain ⟨g₁, g₂, g₃⟩ := hg.within
  norm_num [Envelope.next, afterCut] at g₁ g₂ g₃
  rcases hsense.floor.spec h₀ (by linarith) with ⟨hle, hge, hle', hrise, -⟩ | ⟨hlt, he⟩
  · exact ⟨by linarith, by linarith, by linarith, by linarith⟩
  · exact ⟨by linarith, by linarith, by linarith, by linarith⟩

theorem Drains.grow {load : ℚ} (hpos : 0 < load) (hload : load ≤ g.load)
    (hfast : g.load ≤ 105 / 100 * load) : Climbs q ⟨load, loss, floor, 0⟩ := by
  obtain ⟨hexcess, hloss, hfloor, hgap⟩ := hg.drained hq1 h₀ h₁ hsense
  have hl : Low ⟨load, loss, floor, 0⟩ := hsense.low' hg.held.low h₀ (by linarith)
  have hl₁ : -1 / 1000 ≤ loss := hl.loss
  have hl₂ : -1 / 1000 ≤ floor := hl.floor
  have hge := hg.held.load_ge
  have hle := hg.held.load_le
  refine ⟨rfl, hl, hpos, ?_, hexcess.le, ?_, .inl hfloor, fun _ => hloss, hgap⟩
  · simp only
    linarith
  · simp only
    linarith

end Drained

/-! ## Runs -/

theorem slope_next (n : Nat) :
    0 ≤ (Envelope.next^[n] afterCut).slope ∧ (Envelope.next^[n] afterCut).slope ≤ 1 := by
  induction n with
  | zero => norm_num [afterCut]
  | succ n ih =>
    rw [Function.iterate_succ_apply']
    simp only [Envelope.next]
    exact ⟨by linarith [ih.1], by linarith [ih.1, ih.2]⟩

theorem Drains.cool {k : Nat} (hg : g.Drains q (k + 1)) (hk : k < 3) (hq1 : q ≤ 1)
    {loss floor : ℚ} (h₀ : 0 ≤ ρ) (h₁ : ρ ≤ 1 / 50) (hsense : Senses q ρ g loss floor) :
    Drains q k ⟨g.load, loss, floor, k⟩ := by
  obtain ⟨hs, hs'⟩ := slope_next (3 - (k + 1))
  have hcool : 0 < g.cooldown := by
    rw [hg.cooldown]
    exact Nat.succ_pos k
  refine ⟨⟨hsense.low' hg.held.low h₀ (by linarith), hg.held.load_ge, hg.held.load_le⟩, ?_, rfl⟩
  rw [show 3 - k = 3 - (k + 1) + 1 by omega, Function.iterate_succ_apply']
  exact hg.within.next hs hs' hq1 hg.held h₀ (by linarith) hsense hcool

/-- After startup. -/
inductive Near (q : ℚ) (g : Gauge) : Prop
  | drains {k : Nat} (hk : k ≤ 3) (h : g.Drains q k)
  | climbs (h : g.Climbs q)

theorem Tick.near (hq : 9 / 10 ≤ q) (hq1 : q ≤ 1) (h : Tick q g g') (hg : g.Near q) :
    g'.Near q := by
  cases hg with
  | climbs hg =>
    have hpos := hg.pos
    cases h with
    | cool _ _ _ hc =>
      rw [hg.cooldown] at hc
      cases hc
    | cut h₀ h₁ hs _ hx hl => exact .drains le_rfl (hg.cut h₀ h₁ hs hx hl)
    | slow h₀ h₁ hs _ hx =>
      refine .climbs (hg.grow hq hq1 h₀ h₁ hs hx (div_pos hpos (by norm_num)) ?_ (.inl ?_)) <;>
        linarith
    | steady h₀ h₁ hs _ hx hanchor =>
      refine .climbs (hg.grow hq hq1 h₀ h₁ hs hx (div_pos hpos (by norm_num)) ?_
        (.inr ⟨?_, hanchor⟩)) <;> linarith
  | @drains k hk hg =>
    have hpos : 0 < g.load := by linarith [hg.held.load_ge]
    have hcool := hg.cooldown
    cases k with
    | succ k =>
      cases h with
      | cool h₀ h₁ hs hc =>
        rw [hcool]
        exact .drains (Nat.le_of_succ_le hk) (hg.cool hk hq1 h₀ h₁ hs)
      | cut _ _ _ hc | slow _ _ _ hc | steady _ _ _ hc => cases hcool.symm.trans hc
    | zero =>
      cases h with
      | cool _ _ _ hc =>
        rw [hcool] at hc
        cases hc
      | cut h₀ h₁ hs _ hx => linarith [(hg.drained hq1 h₀ h₁ hs).1]
      | slow h₀ h₁ hs | steady h₀ h₁ hs =>
        refine .climbs (hg.grow hq1 h₀ h₁ hs (div_pos hpos (by norm_num)) ?_ ?_) <;> linarith

theorem afterCut_floor (n : Nat) : (Envelope.next^[n] afterCut).floor ≤ 9 / 100 := by
  induction n with
  | zero => exact le_rfl
  | succ n ih =>
    rw [Function.iterate_succ_apply']
    exact (min_le_left _ _).trans ih

/-- The load is near `q`, and the floor near the path's own loss. -/
theorem Near.bounds (hq1 : q ≤ 1) (hg : g.Near q) : q - 197 / 1000 ≤ g.load ∧
    898 / 1000 * g.load ≤ q ∧ -1 / 1000 ≤ g.floor ∧ g.floor ≤ 9 / 100 := by
  cases hg with
  | drains _ hg =>
    refine ⟨by linarith [hg.held.load_ge], hg.held.load_le, hg.held.low.floor, ?_⟩
    exact hg.within.floor.trans (afterCut_floor _)
  | climbs hg =>
    have hover := hg.over_le
    refine ⟨by linarith, hg.load_le, hg.low.floor, ?_⟩
    rcases hg.floor with h | h <;> linarith

/-! ## Startup -/

/-- Nothing was measured but the path's own loss. -/
structure Quiet (g : Gauge) : Prop where
  cooldown : g.cooldown = 0
  low : g.Low
  loss : g.loss ≤ 1 / 1000
  floor : g.floor ≤ 1 / 1000

/-- The rate was doubled above the capacity. -/
structure Overshot (q : ℚ) (g : Gauge) : Prop where
  cooldown : g.cooldown = 0
  low : g.Low
  loss : g.loss ≤ 23 / 1000
  floor : g.floor ≤ 12 / 10000
  above : 45 / 100 ≤ q - g.load ∧ q - 2 * g.load ≤ 74 / 1000

/-- The rate is a little above the capacity; the loss was neither clean nor congestive
for `j` reports, and comes up to what is over the capacity. -/
structure Creeps (q : ℚ) (j : Nat) (g : Gauge) : Prop where
  cooldown : g.cooldown = 0
  low : g.Low
  unclean : 1 / 50 < g.loss - g.floor
  calm : g.loss - g.floor < 1 / 20
  above : 6 / 100 ≤ q - g.load ∧ q - g.load ≤ 155 / 1000
  lag : q - g.load - 1 / 1000 - g.loss ≤ (7 / 10) ^ j * (q - g.load)
  floor : g.floor ≤ 1 / 1000 + 2 / 10000 * j
  few : j ≤ 7

/-- Startup above the capacity. -/
structure Starts (q : ℚ) (g : Gauge) : Prop where
  cooldown : g.cooldown = 0
  low : g.Low
  floor : g.floor ≤ 3 / 1000
  above : g.loss ≤ 23 / 1000 ∧ q - g.load ≤ 55 / 100 ∨
    g.loss - g.floor ≤ 1 / 20 ∧ q - g.load ≤ 155 / 1000

theorem Quiet.starts (hg : g.Quiet) (hq : q ≤ 1) (hload : q ≤ 2 * g.load) : g.Starts q where
  cooldown := hg.cooldown
  low := hg.low
  floor := by linarith [hg.floor]
  above := .inl ⟨by linarith [hg.loss], by linarith⟩

theorem Overshot.starts (hg : g.Overshot q) (hq : q ≤ 1) : g.Starts q where
  cooldown := hg.cooldown
  low := hg.low
  floor := by linarith [hg.floor]
  above := .inl ⟨hg.loss, by linarith [hg.above.2]⟩

theorem Creeps.starts {j : Nat} (hg : g.Creeps q j) : g.Starts q where
  cooldown := hg.cooldown
  low := hg.low
  floor := by
    have hj : (j : ℚ) ≤ 7 := by exact_mod_cast hg.few
    linarith [hg.floor]
  above := .inr ⟨hg.calm.le, hg.above.2⟩

theorem Starts.cut (hg : g.Starts q) {load loss floor : ℚ} (h₀ : 0 ≤ ρ) (h₁ : ρ ≤ 1 / 50)
    (hsense : Senses q ρ g loss floor) (hover : g.load ≤ q)
    (hx : 1 / 20 ≤ loss - floor ∨ 15 / 100 ≤ q - g.load + 1 / 1000 - floor)
    (hl : 998 / 1000 ≤ load ∧ 898 / 1000 * load ≤ q) : Drains q 3 ⟨load, loss, floor, 3⟩ := by
  have hmax : max 0 (q - g.load) = q - g.load := max_eq_right (by linarith)
  have hlow := hsense.low
  have hhigh := hsense.high
  rw [hmax] at hlow hhigh
  have hl₁ := hg.low.loss
  have hl₂ := hg.low.floor
  have hf := hg.floor
  have hfloor : -1 / 1000 ≤ floor ∧ floor ≤ 4 / 1000 := by
    rcases hsense.floor.spec h₀ (by linarith) with ⟨-, hge, -, hle, -⟩ | ⟨hlt, he⟩
    · exact ⟨by linarith, by linarith⟩
    · exact ⟨by linarith, by linarith⟩
  refine ⟨⟨hsense.low' hg.low h₀ (by linarith), hl.1, hl.2⟩, ⟨?_, ?_, ?_⟩, rfl⟩
  · show floor ≤ 9 / 100
    linarith [hfloor.2]
  · show loss + 2 / 5 * floor ≤ 194 / 1000
    rcases hg.above with ⟨h, h'⟩ | ⟨h, h'⟩ <;> linarith [hfloor.2]
  · show floor - loss ≤ -35 / 1000
    rcases hx with hx | hx <;> linarith [hfloor.1, hfloor.2]

theorem Quiet.under (hg : g.Quiet) {load loss floor : ℚ} (h₀ : 0 ≤ ρ) (h₁ : ρ ≤ 1 / 50)
    (hsense : Senses q ρ g loss floor) (hunder : q ≤ g.load) :
    Quiet ⟨load, loss, floor, 0⟩ ∧ loss - floor ≤ 1 / 50 := by
  have hmax : max 0 (q - g.load) = 0 := max_eq_left (by linarith)
  have hhigh := hsense.high
  rw [hmax] at hhigh
  have hloss := hg.loss
  have hf := hg.floor
  have hl : Low ⟨load, loss, floor, 0⟩ := hsense.low' hg.low h₀ (by linarith)
  have hl₂ : -1 / 1000 ≤ floor := hl.floor
  have hloss' : loss ≤ 1 / 1000 := by linarith
  have hfloor : floor ≤ 1 / 1000 := by
    rcases hsense.floor.spec h₀ (by linarith) with ⟨-, -, hle, -⟩ | ⟨hlt, he⟩ <;> linarith
  exact ⟨⟨rfl, hl, hloss', hfloor⟩, by linarith⟩

section Over

variable {loss floor : ℚ} (hg : g.Quiet) (hsense : Senses q (1 / 250) g loss floor)
  (hover : g.load ≤ q)

include hg hsense hover

theorem Quiet.above : 3 / 10 * (q - g.load) - 1 / 1000 ≤ loss ∧
    loss ≤ 3 / 10 * (q - g.load) + 1 / 1000 ∧ -1 / 1000 ≤ floor ∧ floor ≤ 12 / 10000 := by
  have hmax : max 0 (q - g.load) = q - g.load := max_eq_right (by linarith)
  have hlow := hsense.low
  have hhigh := hsense.high
  rw [hmax] at hlow hhigh
  have h₁ := hg.low.loss
  have h₂ := hg.low.floor
  have h₃ := hg.loss
  have h₄ := hg.floor
  refine ⟨by linarith, by linarith, ?_⟩
  rcases hsense.floor.spec (by norm_num) (by norm_num) with ⟨-, hge, -, hle, -⟩ | ⟨hlt, he⟩
  · exact ⟨by linarith, by linarith⟩
  · exact ⟨by linarith, by linarith⟩

/-- A clean report: the rate is hardly over the capacity, and doubled once more. -/
theorem Quiet.clean (hq : 9 / 10 ≤ q) (hx : loss - floor ≤ 1 / 50) :
    q - g.load ≤ 74 / 1000 ∧ Overshot q ⟨g.load / 2, loss, floor, 0⟩ := by
  obtain ⟨h₁, h₂, h₃, h₄⟩ := hg.above hsense hover
  have hle : q - g.load ≤ 74 / 1000 := by linarith
  have hl : Low ⟨g.load / 2, loss, floor, 0⟩ := hsense.low' hg.low (by norm_num) (by norm_num)
  refine ⟨hle, rfl, hl, ?_, h₄, ?_, ?_⟩
  · show loss ≤ 23 / 1000
    linarith
  · show 45 / 100 ≤ q - g.load / 2
    linarith
  · show q - 2 * (g.load / 2) ≤ 74 / 1000
    linarith

theorem Quiet.creeps (hx : 1 / 50 < loss - floor) (hx' : loss - floor < 1 / 20)
    (hraw : q - g.load - 1 / 1000 - floor < 15 / 100) :
    Creeps q 1 ⟨g.load, loss, floor, 0⟩ := by
  obtain ⟨h₁, h₂, h₃, h₄⟩ := hg.above hsense hover
  have hl : Low ⟨g.load, loss, floor, 0⟩ := hsense.low' hg.low (by norm_num) (by norm_num)
  refine ⟨rfl, hl, hx, hx', ⟨?_, ?_⟩, ?_, ?_, by norm_num⟩
  · show 6 / 100 ≤ q - g.load
    linarith
  · show q - g.load ≤ 155 / 1000
    linarith
  · show q - g.load - 1 / 1000 - loss ≤ (7 / 10) ^ 1 * (q - g.load)
    linarith
  · show floor ≤ 1 / 1000 + 2 / 10000 * ((1 : Nat) : ℚ)
    norm_num
    linarith

end Over

/-- Twice the capacity is congestion at once. -/
theorem Overshot.congested (hg : g.Overshot q) {loss floor : ℚ} (h₀ : 0 ≤ ρ) (h₁ : ρ ≤ 1 / 50)
    (hsense : Senses q ρ g loss floor) : 1 / 20 ≤ loss - floor := by
  have hlow := hsense.low
  have hmax := le_max_right 0 (q - g.load)
  have h₂ := hg.above.1
  have h₃ := hg.low.loss
  have h₄ := hg.floor
  rcases hsense.floor.spec h₀ (by linarith) with ⟨-, -, -, hle, -⟩ | ⟨hlt, he⟩ <;> linarith

/-- One more report a little over the capacity: not clean; and unless it is congestive,
the loss came up by three tenths of the way. -/
theorem Creeps.next {j : Nat} (hg : g.Creeps q j) {loss floor : ℚ}
    (hsense : Senses q (1 / 250) g loss floor) : 1 / 50 < loss - floor ∧
      (loss - floor < 1 / 20 → Creeps q (j + 1) ⟨g.load, loss, floor, 0⟩) := by
  obtain ⟨hover, hover'⟩ := hg.above
  have hmax : max 0 (q - g.load) = q - g.load := max_eq_right (by linarith)
  have hlow := hsense.low
  rw [hmax] at hlow
  have hj : (j : ℚ) ≤ 7 := by exact_mod_cast hg.few
  have h₁ := hg.unclean
  have h₂ := hg.floor
  have h₃ := hg.lag
  have h₄ := hg.low.floor
  have hup : g.floor ≤ loss := by linarith
  have hfloor : floor ≤ g.floor + 2 / 10000 := by
    rcases hsense.floor.spec (by norm_num) (by norm_num) with ⟨-, -, -, hle, -⟩ | ⟨hlt, -⟩ <;>
      linarith
  have hlag : q - g.load - 1 / 1000 - loss ≤ (7 / 10) ^ (j + 1) * (q - g.load) := by
    rw [pow_succ]
    linarith
  refine ⟨by linarith, fun hx => ⟨rfl, hsense.low' hg.low (by norm_num) (by norm_num), ?_, hx,
    ⟨hover, hover'⟩, hlag, ?_, ?_⟩⟩
  · show 1 / 50 < loss - floor
    linarith
  · show floor ≤ 1 / 1000 + 2 / 10000 * ((j + 1 : Nat) : ℚ)
    push_cast
    linarith
  · -- After eight reports the loss is so close to what is over that it is congestive.
    by_contra hmany
    obtain rfl : j = 7 := by have := hg.few; omega
    norm_num at hlag h₂
    linarith

end Gauge

end AtpExperiment
