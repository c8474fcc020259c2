/-
Sliding windows over sequence numbers, and their representation by a ring
of bits.

The abstract window is the set `S` of the numbers accepted so far. With
width `W` it accepts a number when `S` is empty, when the number is above
every accepted one, or when it is fresh and less than `W` behind the
greatest (`Accepts`).

A ring of `W` bits holds the same window: bit `i` is set exactly when some
accepted number still inside the window has residue `i` (`Represents`).
Two numbers inside one window never share a residue, so one bit answers one
membership question (`Represents.slot_iff`). A number behind the head sets
its bit (`Represents.insert`); a number ahead of it clears the residues the
head moves over and sets its own (`Represents.advance`). The ring depends on
the accepted numbers only, not on their order (`Represents.unique`).
-/
import Mathlib.Order.Bounds.Basic
import Mathlib.Data.Set.Insert

namespace SeqWindow

/-- The abstract window: `S` is the set of accepted numbers. -/
def Accepts (W : Nat) (S : Set Nat) (s : Nat) : Prop :=
  S = ∅ ∨ ∃ h, IsGreatest S h ∧ (h < s ∨ (s ∉ S ∧ h - s < W))

/-- A ring of bits with head `h` represents the window of `S`. -/
structure Represents (W : Nat) (S : Set Nat) (h : Nat) (slot : Nat → Bool) : Prop where
  greatest : IsGreatest S h
  slots : ∀ i < W, slot i = true ↔ ∃ s ∈ S, h < s + W ∧ s % W = i

variable {W : Nat} {S : Set Nat} {h s : Nat} {slot slot' : Nat → Bool}

/-- Accepting a number does not shut out another one less than `W` behind it. -/
theorem Accepts.insert {t : Nat} (ht : Accepts W S t) (hne : t ≠ s) (hnear : s - t < W) :
    Accepts W (Insert.insert s S) t := by
  rcases ht with rfl | ⟨h, hg, hc⟩
  · refine .inr ⟨s, ?_, .inr ⟨?_, hnear⟩⟩
    · rw [insert_empty_eq]
      exact isGreatest_singleton
    · rw [insert_empty_eq]
      exact hne
  have htS : t ∉ Insert.insert s S := by
    rintro (he | hmem)
    · exact hne he
    · rcases hc with hlt | ⟨hn, -⟩
      · exact absurd (hg.2 hmem) (by omega)
      · exact hn hmem
  -- The greatest number is the old one or `s`, and `t` is near both.
  have hgs : IsGreatest (Insert.insert s S) (max s h) := hg.insert s
  rcases Nat.lt_or_ge (max s h) t with hlt | hge
  · exact .inr ⟨_, hgs, .inl hlt⟩
  · refine .inr ⟨_, hgs, .inr ⟨htS, ?_⟩⟩
    rcases hc with hlt | ⟨-, hw⟩ <;> omega

theorem le_of_mod_eq {a b : Nat} (ha : h < a + W) (hb : b ≤ h) (hab : a % W = b % W) : b ≤ a := by
  by_contra hlt
  have hd : (b - a) % W = 0 := Nat.sub_mod_eq_zero_of_mod_eq hab.symm
  rw [Nat.mod_eq_of_lt (by omega)] at hd
  omega

theorem eq_of_mod_eq {a b : Nat} (ha : a ≤ h) (ha' : h < a + W) (hb : b ≤ h) (hb' : h < b + W)
    (hab : a % W = b % W) : a = b :=
  le_antisymm (le_of_mod_eq hb' ha hab.symm) (le_of_mod_eq ha' hb hab)

theorem Represents.slot_iff (hr : Represents W S h slot) (hs : s ≤ h) (hw : h < s + W) :
    slot (s % W) = true ↔ s ∈ S := by
  rw [hr.slots _ (Nat.mod_lt _ (by omega))]
  constructor
  · intro hx
    obtain ⟨t, ht, htw, hmod⟩ := hx
    rwa [← eq_of_mod_eq (hr.greatest.2 ht) htw hs hw hmod]
  · exact fun hS => ⟨s, hS, hw, rfl⟩

/-- The numbers determine the head and the bits. -/
theorem Represents.unique {h' : Nat} (hr : Represents W S h slot) (hr' : Represents W S h' slot') :
    h = h' ∧ ∀ i < W, slot i = slot' i := by
  obtain rfl := hr.greatest.unique hr'.greatest
  refine ⟨rfl, fun i hi => ?_⟩
  rw [Bool.eq_iff_iff, hr.slots i hi, hr'.slots i hi]

/-- What the ring answers is what the abstract window answers. -/
theorem Represents.accepts_iff (hr : Represents W S h slot) :
    Accepts W S s ↔ h < s ∨ (h - s < W ∧ slot (s % W) = false) := by
  have hne : S ≠ ∅ := fun he => by simpa [he] using hr.greatest.1
  constructor
  · intro hx
    rcases hx with he | ⟨h', hg, hc⟩
    · exact absurd he hne
    obtain rfl := hg.unique hr.greatest
    rcases hc with hc | ⟨hS, hw⟩
    · exact .inl hc
    rcases Nat.lt_or_ge h' s with hlt | hge
    · exact .inl hlt
    · refine .inr ⟨hw, ?_⟩
      rw [← Bool.not_eq_true, hr.slot_iff hge (by omega)]
      exact hS
  · intro hx
    rcases hx with hlt | ⟨hw, hs⟩
    · exact .inr ⟨h, hr.greatest, .inl hlt⟩
    rcases Nat.lt_or_ge h s with hlt | hge
    · exact .inr ⟨h, hr.greatest, .inl hlt⟩
    · refine .inr ⟨h, hr.greatest, .inr ⟨?_, hw⟩⟩
      rw [← hr.slot_iff hge (by omega), hs]
      exact Bool.false_ne_true

theorem represents_singleton (hs : ∀ i < W, slot i = true ↔ i = s % W) :
    Represents W {s} s slot := by
  refine ⟨isGreatest_singleton, fun i hi => ?_⟩
  rw [hs i hi]
  constructor
  · intro he
    subst he
    exact ⟨s, rfl, by omega, rfl⟩
  · intro hx
    obtain ⟨t, rfl, -, rfl⟩ := hx
    rfl

/-- A number behind the head sets its own bit. -/
theorem Represents.insert (hr : Represents W S h slot) (hle : s ≤ h) (hw : h < s + W)
    (hs : ∀ i < W, slot' i = true ↔ i = s % W ∨ slot i = true) :
    Represents W (insert s S) h slot' := by
  refine ⟨⟨.inr hr.greatest.1, ?_⟩, fun i hi => ?_⟩
  · intro t hx
    rcases hx with rfl | ht
    · exact hle
    · exact hr.greatest.2 ht
  · rw [hs i hi, hr.slots i hi]
    constructor
    · intro hx
      rcases hx with rfl | ⟨t, ht, htw, hmod⟩
      · exact ⟨s, .inl rfl, hw, rfl⟩
      · exact ⟨t, .inr ht, htw, hmod⟩
    · intro hx
      rcases hx with ⟨t, rfl | ht, htw, hmod⟩
      · exact .inl hmod.symm
      · exact .inr ⟨t, ht, htw, hmod⟩

theorem exists_residue {i lo : Nat} (hi : i < W) (hj : lo + W ≤ s + 1) :
    ∃ c, lo ≤ c ∧ c ≤ s ∧ c % W = i := by
  -- Of the two numbers of residue `i` around `lo`, the first that is not below it.
  have hlt := Nat.mod_lt lo (show 0 < W by omega)
  have hdm := Nat.div_add_mod lo W
  by_cases hc : lo ≤ W * (lo / W) + i
  · exact ⟨W * (lo / W) + i, hc, by omega, by simp [Nat.mod_eq_of_lt hi]⟩
  · refine ⟨W * (lo / W + 1) + i, ?_, ?_, by simp [Nat.mod_eq_of_lt hi]⟩ <;>
      rw [Nat.mul_add, Nat.mul_one] <;> omega

/-- A number ahead of the head: the residues the head moves over are
cleared, its own is set, the others stay. -/
theorem Represents.advance (hr : Represents W S h slot) (hlt : h < s) (hW : 0 < W)
    (hs : ∀ i < W, slot' i = true ↔
      i = s % W ∨ (slot i = true ∧ ∀ c, h < c → c ≤ s → c % W ≠ i)) :
    Represents W (Insert.insert s S) s slot' := by
  refine ⟨⟨.inl rfl, ?_⟩, fun i hi => ?_⟩
  · intro t hx
    rcases hx with rfl | ht
    · exact le_rfl
    · exact (hr.greatest.2 ht).trans hlt.le
  rw [hs i hi, hr.slots i hi]
  constructor
  · intro hx
    rcases hx with rfl | ⟨⟨t, ht, htw, rfl⟩, hclear⟩
    · exact ⟨s, .inl rfl, by omega, rfl⟩
    · -- `t + W` has the residue of `t`; were it passed over, `t`'s bit would be cleared.
      refine ⟨t, .inr ht, ?_, rfl⟩
      by_contra hge
      exact hclear (t + W) htw (by omega) (by simp)
  · intro hx
    rcases hx with ⟨t, rfl | ht, htw, hmod⟩
    · exact .inl hmod.symm
    · have hth := hr.greatest.2 ht
      refine .inr ⟨⟨t, ht, by omega, hmod⟩, fun c hc hcs hcm => ?_⟩
      have := eq_of_mod_eq (h := s) (W := W) (a := c) (b := t) hcs (by omega) (by omega) htw
        (hcm.trans hmod.symm)
      omega

end SeqWindow
