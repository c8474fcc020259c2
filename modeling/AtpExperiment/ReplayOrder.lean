/-
Reordering inside the replay window is immaterial.

The bitmap is determined by the numbers committed, whatever their order
(`Holds.unique`). Accepting a number does not shut out another one less than
4096 away, so two orders of the same fresh numbers are both accepted in full,
and they end in one window (`reorder_immaterial`).
-/
import AtpExperiment.Planes
import AtpExperiment.ReplayLimits

namespace AtpExperiment

open Aead

namespace ReplayWindow

variable {w w' : ReplayWindow} {acc acc' : List UInt64}

theorem ext_of_bit (hbit : ∀ i < 4096, w.bit i = w'.bit i) (hh : w.highest = w'.highest)
    (hp : w.primed = w'.primed) : w = w' := by
  obtain ⟨bm, h, p⟩ := w
  obtain ⟨bm', h', p'⟩ := w'
  obtain rfl : h = h' := hh
  obtain rfl : p = p' := hp
  congr 1
  refine Vector.ext fun j hj => BitVec.eq_of_getLsbD_eq fun k hk => ?_
  have hj' : j < 64 := hj
  have hb := hbit (64 * j + k) (by omega)
  have hdiv : (64 * j + k) / 64 = j := by omega
  have hmod : (64 * j + k) % 64 = k := by omega
  simpa only [bit, hdiv, hmod, Vector.getElem?_eq_getElem hj, Option.getD_some] using hb

/-- Windows that hold the same numbers are equal. -/
theorem Holds.unique (h : Holds w acc) (h' : Holds w' acc') (hne : acc ≠ [])
    (hmem : ∀ s, s ∈ acc ↔ s ∈ acc') : w = w' := by
  have hset : {n | ∃ s ∈ acc, s.toNat = n} = {n | ∃ s ∈ acc', s.toNat = n} := by
    simp only [hmem]
  rcases h with ⟨-, he, -⟩ | ⟨hp, -, hr⟩
  · exact absurd he hne
  rcases h' with ⟨-, rfl, -⟩ | ⟨hp', -, hr'⟩
  · exact absurd (List.eq_nil_iff_forall_not_mem.mpr fun s hs => by simpa using (hmem s).mp hs) hne
  rw [hset] at hr
  obtain ⟨hh, hbit⟩ := hr.unique hr'
  exact ext_of_bit hbit (UInt64.toNat.inj hh) (hp.trans hp'.symm)

theorem Holds.commit_comm {s t : UInt64} (h : Holds w acc) (hne : s ≠ t) (hs : s < u64Max)
    (ht : t < u64Max) (has : w.wouldAccept s = true) (hat : w.wouldAccept t = true)
    (hst : s.toNat - t.toNat < 4096) (hts : t.toNat - s.toNat < 4096) :
    ∃ w₁ w₂ v, w.commit s = .ok w₁ ∧ w₁.wouldAccept t = true ∧ w₁.commit t = .ok v ∧
      w.commit t = .ok w₂ ∧ w₂.wouldAccept s = true ∧ w₂.commit s = .ok v := by
  obtain ⟨w₁, hw₁, hh₁⟩ := h.commit (.inl hs) has
  obtain ⟨w₂, hw₂, hh₂⟩ := h.commit (.inl ht) hat
  have hat₁ := h.wouldAccept_commit hh₁ hat hne.symm hst
  have has₂ := h.wouldAccept_commit hh₂ has hne hts
  obtain ⟨v, hv, hhv⟩ := hh₁.commit (.inl ht) hat₁
  obtain ⟨v', hv', hhv'⟩ := hh₂.commit (.inl hs) has₂
  obtain rfl : v = v' := by
    refine hhv.unique hhv' (by simp) fun x => ?_
    simp only [List.mem_append, List.mem_singleton]
    tauto
  exact ⟨w₁, w₂, v, hw₁, hat₁, hv, hw₂, has₂, hv'⟩

/-- **Reordering inside the window is immaterial.** In a reachable window, two
distinct numbers below `u64::MAX` that are both accepted and less than 4096
apart: after either one the other is still accepted, and both orders leave the
same window. So any two orders of authenticated datagrams with such numbers
open in full, each to its pair, and leave the same opener. -/
theorem reorder_immaterial (h : Reachable w) :
    (∀ s t : UInt64, s ≠ t → s < u64Max → t < u64Max →
      w.wouldAccept s = true → w.wouldAccept t = true →
      s.toNat - t.toNat < 4096 → t.toNat - s.toNat < 4096 →
      ∃ w₁ w₂ v, w.commit s = .ok w₁ ∧ w₁.wouldAccept t = true ∧ w₁.commit t = .ok v ∧
        w.commit t = .ok w₂ ∧ w₂.wouldAccept s = true ∧ w₂.commit s = .ok v) ∧
    ∀ (dec : Decrypt) (tag : UInt64) (xs ys : List ((UInt32 × Octets) × Octets)), ys.Perm xs →
      (∀ x ∈ xs, SealedWire dec tag (wireSeq x.2) x.1.1 x.1.2 x.2 ∧ wireSeq x.2 < u64Max ∧
        w.wouldAccept (wireSeq x.2) = true) →
      (∀ x ∈ xs, ∀ y ∈ xs, (wireSeq x.2).toNat - (wireSeq y.2).toNat < 4096) →
      (xs.map fun x => wireSeq x.2).Nodup →
      ∃ v, RxPlane.openAll dec tag (.sealed w) (xs.map Prod.snd) =
          .ok (xs.map fun x => some x.1, .sealed v) ∧
        RxPlane.openAll dec tag (.sealed w) (ys.map Prod.snd) =
          .ok (ys.map fun x => some x.1, .sealed v) := by
  obtain ⟨acc, hacc⟩ := h.holds
  refine ⟨fun s t hne hs ht has hat hst hts => hacc.commit_comm hne hs ht has hat hst hts, ?_⟩
  intro dec tag xs ys hperm hxs hnear hnodup
  obtain ⟨v, hv, hhv⟩ := RxPlane.openAll_accepted hacc hxs hnear hnodup
  have hseqs := hperm.map fun x => wireSeq x.2
  obtain ⟨v', hv', hhv'⟩ := RxPlane.openAll_accepted hacc
    (fun y hy => hxs y (hperm.mem_iff.mp hy))
    (fun y hy z hz => hnear y (hperm.mem_iff.mp hy) z (hperm.mem_iff.mp hz))
    (hseqs.nodup_iff.mpr hnodup)
  by_cases hnil : xs = []
  · subst hnil
    obtain rfl := hperm.eq_nil
    exact ⟨v, hv, hv⟩
  obtain rfl : v = v' := by
    refine hhv.unique hhv' (by simp [hnil]) fun s => ?_
    rw [List.mem_append, List.mem_append, hseqs.mem_iff]
  exact ⟨v, hv, hv'⟩

/-- A datagram under tag 7, sealed with number `q`. -/
def sealedExample (q : UInt64) : Octets :=
  (sealDatagram SealedRun.xorCipher ⟨q⟩ 7 3 [1, 2]).out

/-- After 5000, the numbers 4990 and 5003 in either order, as commits and as
datagrams. -/
theorem reorder_around_5000 :
    (∃ w₁ w₂ v, (single 5000).commit 4990 = .ok w₁ ∧ w₁.wouldAccept 5003 = true ∧
      w₁.commit 5003 = .ok v ∧ (single 5000).commit 5003 = .ok w₂ ∧
      w₂.wouldAccept 4990 = true ∧ w₂.commit 4990 = .ok v) ∧
    ∃ v, RxPlane.openAll xorOpen 7 (.sealed (single 5000))
        [sealedExample 4990, sealedExample 5003] =
          .ok ([some (3, [1, 2]), some (3, [1, 2])], .sealed v) ∧
      RxPlane.openAll xorOpen 7 (.sealed (single 5000))
        [sealedExample 5003, sealedExample 4990] =
          .ok ([some (3, [1, 2]), some (3, [1, 2])], .sealed v) := by
  have hreach : Reachable (single 5000) :=
    Runs.Reachable.next (.start rfl) ⟨5000, rfl, by decide +kernel⟩
  obtain ⟨hcomm, hopens⟩ := reorder_immaterial hreach
  have hwire : ∀ q ∈ [4990, 5003], SealedWire xorOpen 7 q 3 [1, 2] (sealedExample q) ∧
      wireSeq (sealedExample q) = q ∧ (single 5000).wouldAccept q = true := by
    intro q hq
    simp only [List.mem_cons, List.not_mem_nil, or_false] at hq
    rcases hq with rfl | rfl
    · exact ⟨⟨((sealedExample 4990).drop 20).take 6, (sealedExample 4990).drop 26,
        by decide +kernel, by decide +kernel, by decide +kernel, by decide +kernel⟩,
        by decide +kernel, by decide +kernel⟩
    · exact ⟨⟨((sealedExample 5003).drop 20).take 6, (sealedExample 5003).drop 26,
        by decide +kernel, by decide +kernel, by decide +kernel, by decide +kernel⟩,
        by decide +kernel, by decide +kernel⟩
  obtain ⟨hw₁, hq₁, ha₁⟩ := hwire 4990 (by decide)
  obtain ⟨hw₂, hq₂, ha₂⟩ := hwire 5003 (by decide)
  refine ⟨hcomm 4990 5003 (by decide) (by decide) (by decide) ha₁ ha₂ (by decide) (by decide), ?_⟩
  refine hopens xorOpen 7 [((3, [1, 2]), sealedExample 4990), ((3, [1, 2]), sealedExample 5003)]
    [((3, [1, 2]), sealedExample 5003), ((3, [1, 2]), sealedExample 4990)] (.swap _ _ _) ?_ ?_ ?_
  · simp only [List.mem_cons, List.not_mem_nil, or_false, forall_eq_or_imp, forall_eq, hq₁, hq₂]
    exact ⟨⟨hw₁, by decide, ha₁⟩, hw₂, by decide, ha₂⟩
  · simp only [List.mem_cons, List.not_mem_nil, or_false, forall_eq_or_imp, forall_eq, hq₁, hq₂]
    decide
  · simp only [List.map_cons, List.map_nil, hq₁, hq₂]
    decide

end ReplayWindow

end AtpExperiment
