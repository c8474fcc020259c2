/-
The replay window refines the window of accepted numbers.

`bit` reads the circular bitmap by residue, and `bit_set`, `bit_clear`,
`clearLoop_spec` say what each operation does to it. With them `commit`
is, residue by residue, one of the ring updates of `SeqWindow`
(`Holds.commit`), so after any sequence of offers `wouldAccept`
answers what the abstract window of the accepted numbers answers
(`wouldAccept_iff_accepts`).
-/
import AtpExperiment.Lib.SeqWindow
import AtpExperiment.Replay
import Mathlib.Data.List.Nodup

namespace AtpExperiment.ReplayWindow

open SeqWindow

/-! ## Bits -/

/-- Bit `i` of the circular bitmap. -/
def bit (w : ReplayWindow) (i : Nat) : Bool := (w.bitmap[i / 64]?.getD 0).getLsbD (i % 64)

/-- The residue of a sequence number. -/
def residue (seq : UInt64) : Nat := seq.toNat % 4096

theorem slot_fst (seq : UInt64) : ((slot seq).1 : Nat) = residue seq / 64 := rfl

theorem getLsbD_slot (seq : UInt64) {j : Nat} (hj : j < 64) :
    (slot seq).2.getLsbD j = decide (j = residue seq % 64) := by
  have hs : (slot seq).2 = 1#64 <<< (residue seq % 64) := rfl
  rw [hs, Bool.eq_iff_iff, BitVec.getLsbD_shiftLeft, BitVec.getLsbD_one]
  simp only [Bool.and_eq_true, decide_eq_true_eq, Bool.not_eq_true', decide_eq_false_iff_not]
  omega

theorem decide_residue {i r : Nat} (hw : r / 64 = i / 64) :
    decide (i % 64 = r % 64) = decide (i = r) := by
  rw [decide_eq_decide]; omega

theorem bit_set (w : ReplayWindow) (seq : UInt64) (i : Nat) :
    (w.set seq).bit i = (decide (i = residue seq) || w.bit i) := by
  simp only [bit, set, Vector.getElem?_set, slot_fst]
  by_cases hw : residue seq / 64 = i / 64
  · rw [if_pos hw, Option.getD_some, BitVec.getLsbD_or, getElem_slot, slot_fst, hw,
      getLsbD_slot seq (Nat.mod_lt _ (by decide)), Bool.or_comm, decide_residue hw]
  · have : i ≠ residue seq := fun he => hw (by rw [he])
    rw [if_neg hw, decide_eq_false this, Bool.false_or]

theorem bit_clear (w : ReplayWindow) (seq : UInt64) (i : Nat) :
    (w.clear seq).bit i = (w.bit i && decide (i ≠ residue seq)) := by
  simp only [bit, clear, Vector.getElem?_set, slot_fst]
  by_cases hw : residue seq / 64 = i / 64
  · have hlt : i % 64 < 64 := Nat.mod_lt _ (by decide)
    rw [if_pos hw, Option.getD_some, BitVec.getLsbD_and, getElem_slot, slot_fst, hw,
      BitVec.getLsbD_not, getLsbD_slot seq hlt, decide_residue hw]
    simp [hlt]
  · have : i ≠ residue seq := fun he => hw (by rw [he])
    rw [if_neg hw, decide_eq_true this, Bool.and_true]

theorem isSet_eq (w : ReplayWindow) (seq : UInt64) : w.isSet seq = w.bit (residue seq) := by
  rw [isSet, bit, getElem_slot, slot_fst, Bool.eq_iff_iff, bne_iff_ne]
  have hlt : residue seq % 64 < 64 := Nat.mod_lt _ (by decide)
  constructor
  · intro hne
    by_contra hb
    refine hne (BitVec.eq_of_getLsbD_eq fun j hj => ?_)
    rw [BitVec.getLsbD_and, getLsbD_slot seq hj]
    by_cases he : j = residue seq % 64
    · rw [he]; simpa using hb
    · simp [he]
  · intro hb he
    have := congrArg (BitVec.getLsbD · (residue seq % 64)) he
    rw [BitVec.getLsbD_and, getLsbD_slot seq hlt, hb] at this
    simp at this

@[simp] theorem bit_zero (h : UInt64) (p : Bool) (i : Nat) :
    bit ⟨Vector.replicate replayWindowWords 0, h, p⟩ i = false := by
  simp only [bit, Vector.getElem?_replicate]
  split <;> simp

/-! ## Clearing -/

theorem toNat_succ {a : UInt64} (h : a.toNat + 1 < 2 ^ 64) : (a + 1).toNat = a.toNat + 1 := by
  rw [UInt64.toNat_add]; exact Nat.mod_eq_of_lt h

/-- The clearing loop, for a head below `u64::MAX`: it returns, and clears
exactly the residues of `cursor`, …, `newHighest`. -/
theorem clearLoop_spec (w : ReplayWindow) (cursor newHighest : UInt64)
    (hmax : newHighest.toNat + 1 < 2 ^ 64) :
    ∃ w', clearLoop w cursor newHighest = .ok w' ∧ w'.highest = w.highest ∧
      w'.primed = w.primed ∧ ∀ i, w'.bit i = true ↔
        w.bit i = true ∧ ∀ c, cursor.toNat ≤ c → c ≤ newHighest.toNat → c % 4096 ≠ i := by
  fun_induction clearLoop w cursor newHighest with
  | case1 w cursor hle hlt ih =>
    obtain ⟨w', hw', hh, hp, hbit⟩ := ih
    refine ⟨w', hw', hh, hp, fun i => ?_⟩
    rw [hbit, bit_clear, toNat_succ hlt]
    simp only [Bool.and_eq_true, decide_eq_true_eq, and_assoc]
    refine and_congr_right fun _ => ⟨fun ⟨hi, hc⟩ c h1 h2 => ?_, fun hc => ⟨?_, ?_⟩⟩
    · rcases Nat.eq_or_lt_of_le h1 with rfl | h1
      · exact Ne.symm hi
      · exact hc c h1 h2
    · exact (hc _ le_rfl (UInt64.le_iff_toNat_le.mp hle)).symm
    · exact fun c h1 => hc c (by omega)
  | case2 w cursor hle hge =>
    have := UInt64.le_iff_toNat_le.mp hle
    omega
  | case3 w cursor hgt =>
    have := UInt64.not_le.mp hgt
    rw [UInt64.lt_iff_toNat_lt] at this
    refine ⟨w, rfl, rfl, rfl, fun i => ⟨fun h => ⟨h, fun c h1 h2 => by omega⟩, And.left⟩⟩

/-- `clear_range_for_advance` with the `advance` of numbers from `lo` on:
their residues are cleared. -/
theorem clearRangeForAdvance_spec (w : ReplayWindow) (newHighest advance : UInt64) (lo : Nat)
    (hmax : advance.toNat < 4096 → newHighest.toNat + 1 < 2 ^ 64)
    (hlo : lo ≤ newHighest.toNat + 1)
    (hadv : advance.toNat = min (newHighest.toNat + 1 - lo) 4096) :
    ∃ w', clearRangeForAdvance w newHighest advance = .ok w' ∧ w'.highest = w.highest ∧
      w'.primed = w.primed ∧ ∀ i < 4096, w'.bit i = true ↔
        w.bit i = true ∧ ∀ c, lo ≤ c → c ≤ newHighest.toNat → c % 4096 ≠ i := by
  unfold clearRangeForAdvance
  by_cases hbig : replayWindowBits ≤ advance
  · have h4 : 4096 ≤ advance.toNat := UInt64.le_iff_toNat_le.mp hbig
    rw [if_pos hbig]
    refine ⟨_, rfl, rfl, rfl, fun i hi => ?_⟩
    obtain ⟨c, hc1, hc2, hc3⟩ := exists_residue (W := 4096) (s := newHighest.toNat) hi
      (show lo + 4096 ≤ newHighest.toNat + 1 by omega)
    simp only [bit_zero, Bool.false_eq_true, false_iff, not_and]
    exact fun _ hall => hall c hc1 hc2 hc3
  · have h4 : advance.toNat < 4096 := UInt64.lt_iff_toNat_lt.mp (UInt64.not_le.mp hbig)
    have hmax := hmax h4
    have hn := toNat_succ hmax
    have hle : advance ≤ newHighest + 1 := by
      rw [UInt64.le_iff_toNat_le, hn]; omega
    have hcur : (newHighest + 1 - advance).toNat = lo := by
      rw [UInt64.toNat_sub_of_le _ _ hle, hn]; omega
    rw [if_neg hbig, Checked.addU64_of_lt hmax, Checked.ok_bind, Checked.subU64_of_le hle,
      Checked.ok_bind]
    obtain ⟨w', hw', hh, hp, hbit⟩ :=
      clearLoop_spec w (newHighest + 1 - advance) newHighest hmax
    rw [hcur] at hbit
    exact ⟨w', hw', hh, hp, fun i _ => hbit i⟩

/-! ## Commits -/

theorem lt_max_iff {s : UInt64} : s < u64Max ↔ s.toNat + 1 < 2 ^ 64 := by
  have hmax : u64Max.toNat = 2 ^ 64 - 1 := rfl
  rw [UInt64.lt_iff_toNat_lt, hmax]
  omega

/-- A commit of `s` adds nothing to `u64::MAX`: `s` is below it, or so far
ahead of the head that the whole bitmap is reset. -/
def Fits (w : ReplayWindow) (s : UInt64) : Prop :=
  s < u64Max ∨ w.primed = true ∧ w.highest.toNat + 4096 ≤ s.toNat

theorem toNat_bits : replayWindowBits.toNat = 4096 := rfl

/-- The window holds the accepted numbers `acc`: nothing committed and an
empty bitmap, or the ring of `SeqWindow.Represents` with its head. -/
def Holds (w : ReplayWindow) (acc : List UInt64) : Prop :=
  (w.primed = false ∧ acc = [] ∧ ∀ i < 4096, w.bit i = false) ∨
    (w.primed = true ∧ w.highest ∈ acc ∧
      Represents 4096 {n | ∃ s ∈ acc, s.toNat = n} w.highest.toNat w.bit)

theorem holds_new : Holds new [] := .inl ⟨rfl, rfl, fun i _ => bit_zero 0 false i⟩

theorem accepted_append (acc : List UInt64) (s : UInt64) :
    {n | ∃ t ∈ acc ++ [s], t.toNat = n} = insert s.toNat {n | ∃ t ∈ acc, t.toNat = n} := by
  ext n
  simp only [List.mem_append, List.mem_singleton, Set.mem_ofPred_eq, Set.mem_insert_iff]
  constructor
  · intro hx
    rcases hx with ⟨t, ht | rfl, rfl⟩
    · exact .inr ⟨t, ht, rfl⟩
    · exact .inl rfl
  · intro hx
    rcases hx with rfl | ⟨t, ht, rfl⟩
    · exact ⟨s, .inr rfl, rfl⟩
    · exact ⟨t, .inl ht, rfl⟩

/-- What `would_accept` answers is what the abstract window answers. -/
theorem Holds.wouldAccept_iff {w : ReplayWindow} {acc : List UInt64} (h : Holds w acc)
    (s : UInt64) :
    w.wouldAccept s = true ↔ Accepts 4096 {n | ∃ t ∈ acc, t.toNat = n} s.toNat := by
  rcases h with ⟨hp, rfl, -⟩ | ⟨hp, hmem, hr⟩
  · simp [wouldAccept, hp, Accepts]
  rw [hr.accepts_iff, wouldAccept, hp]
  simp only [Bool.not_true, Bool.false_or, decide_eq_true_eq, UInt64.lt_iff_toNat_lt]
  by_cases hlt : w.highest.toNat < s.toNat
  · simp [hlt]
  have hle : s ≤ w.highest := UInt64.le_iff_toNat_le.mpr (by omega)
  have hbits : replayWindowBits ≤ w.highest - s ↔ 4096 ≤ w.highest.toNat - s.toNat := by
    rw [UInt64.le_iff_toNat_le, UInt64.toNat_sub_of_le _ _ hle, toNat_bits]
  rw [if_neg hlt]
  by_cases h4 : 4096 ≤ w.highest.toNat - s.toNat
  · rw [if_pos (hbits.mpr h4)]
    simp only [Bool.false_eq_true, false_iff]
    omega
  · rw [if_neg (hbits.not.mpr h4), isSet_eq]
    simp [hlt, Nat.not_le.mp h4, residue]

/-- A commit after a positive `would_accept` that stays clear of `u64::MAX`:
it returns, and adds its number. -/
theorem Holds.commit {w : ReplayWindow} {acc : List UInt64} (h : Holds w acc) {s : UInt64}
    (hfits : w.Fits s) (ha : w.wouldAccept s = true) :
    ∃ w', w.commit s = .ok w' ∧ Holds w' (acc ++ [s]) := by
  have hacc := (h.wouldAccept_iff s).mp ha
  rcases h with ⟨hp, rfl, hz⟩ | ⟨hp, hmem, hr⟩
  · -- The first commit: the bitmap is empty before and after the clearing.
    have hmax : s.toNat + 1 < 2 ^ 64 := by
      rcases hfits with hlt | ⟨hp', -⟩
      · exact lt_max_iff.mp hlt
      · rw [hp] at hp'
        cases hp'
    have hnext : Checked.addU64 s 1 = .ok (s + 1) := Checked.addU64_of_lt hmax
    have hmin : (Checked.minU64 replayWindowBits (s + 1)).toNat = min (s.toNat + 1 - 0) 4096 := by
      rw [Checked.toNat_minU64, toNat_succ hmax, toNat_bits]; omega
    obtain ⟨w', hw', hh, hpr, hbit⟩ := clearRangeForAdvance_spec
      { w with primed := true, highest := s } s _ 0 (fun _ => hmax) (by omega) hmin
    refine ⟨w'.set s, ?_, .inr ⟨hpr, by simp [set, hh], ?_⟩⟩
    · simp [ReplayWindow.commit, hp, hnext, hw', pure, Except.pure]
    rw [accepted_append]
    have hset : {n | ∃ t ∈ ([] : List UInt64), t.toNat = n} = ∅ := by simp
    have hhs : (w'.set s).highest = s := hh
    rw [hset, insert_empty_eq, hhs]
    refine represents_singleton fun i hi => ?_
    have hz' : w'.bit i = false := by
      rw [← Bool.not_eq_true, hbit i hi]
      exact fun ⟨hb, _⟩ => Bool.false_ne_true ((hz i hi).symm.trans hb)
    rw [bit_set, hz', Bool.or_false, decide_eq_true_eq, residue]
  rw [hr.accepts_iff] at hacc
  by_cases hlt : w.highest < s
  · -- An advance: the residues between the old and the new head are cleared.
    have hlt' := UInt64.lt_iff_toNat_lt.mp hlt
    have hsub : (s - w.highest).toNat = s.toNat - w.highest.toNat :=
      UInt64.toNat_sub_of_le _ _ (UInt64.le_iff_toNat_le.mpr hlt'.le)
    have hmin : (Checked.minU64 (s - w.highest) replayWindowBits).toNat =
        min (s.toNat + 1 - (w.highest.toNat + 1)) 4096 := by
      rw [Checked.toNat_minU64, hsub, toNat_bits]; omega
    have hmax : (Checked.minU64 (s - w.highest) replayWindowBits).toNat < 4096 →
        s.toNat + 1 < 2 ^ 64 := by
      intro h4
      rcases hfits with hlt | ⟨-, hfar⟩
      · exact lt_max_iff.mp hlt
      · omega
    obtain ⟨w', hw', hh, hpr, hbit⟩ := clearRangeForAdvance_spec w s _ (w.highest.toNat + 1) hmax
      (by omega) hmin
    refine ⟨({ w' with highest := s } : ReplayWindow).set s, ?_,
      .inr ⟨hpr.trans hp, by simp [set], ?_⟩⟩
    · simp [ReplayWindow.commit, hp, hlt, hw', pure, Except.pure]
    rw [accepted_append]
    refine hr.advance hlt' (by decide) fun i hi => ?_
    have hb : ({ w' with highest := s } : ReplayWindow).bit i = w'.bit i := rfl
    rw [bit_set, hb, Bool.or_eq_true, decide_eq_true_eq, hbit i hi]
    exact Iff.rfl
  · -- Behind the head: one more bit.
    have hlt' : ¬ w.highest.toNat < s.toNat := fun h => hlt (UInt64.lt_iff_toNat_lt.mpr h)
    obtain ⟨hw4, -⟩ := hacc.resolve_left hlt'
    refine ⟨w.set s, ?_, .inr ⟨hp, by simp [set, hmem], ?_⟩⟩
    · simp [ReplayWindow.commit, hp, hlt, pure, Except.pure]
    rw [accepted_append]
    refine hr.insert (by omega) (by omega) fun i hi => ?_
    rw [bit_set, Bool.or_eq_true, decide_eq_true_eq]
    exact Iff.rfl

/-! ## Sequences of operations -/

theorem Holds.not_wouldAccept {w : ReplayWindow} {acc : List UInt64} (h : Holds w acc)
    {s : UInt64} (hs : s ∈ acc) : w.wouldAccept s = false := by
  rw [← Bool.not_eq_true, h.wouldAccept_iff s]
  intro hx
  rcases hx with he | ⟨g, hg, hlt | ⟨hn, -⟩⟩
  · exact Set.eq_empty_iff_forall_notMem.mp he s.toNat ⟨s, hs, rfl⟩
  · exact absurd (hg.2 ⟨s, hs, rfl⟩) (by omega)
  · exact hn ⟨s, hs, rfl⟩

/-- A number that is not in the window, and not far behind any that is, is accepted. -/
theorem Holds.wouldAccept_of_near {w : ReplayWindow} {acc : List UInt64} (h : Holds w acc)
    {s : UInt64} (hs : s ∉ acc) (hnear : ∀ a ∈ acc, a.toNat - s.toNat < 4096) :
    w.wouldAccept s = true := by
  rw [h.wouldAccept_iff s]
  rcases h with ⟨-, rfl, -⟩ | ⟨-, hmem, hr⟩
  · exact .inl (by simp)
  · refine .inr ⟨_, hr.greatest, .inr ⟨fun hx => ?_, hnear _ hmem⟩⟩
    obtain ⟨a, ha, he⟩ := hx
    exact hs (UInt64.toNat.inj he ▸ ha)

/-- A commit leaves every other number accepted that is less than 4096 behind it. -/
theorem Holds.wouldAccept_commit {w w' : ReplayWindow} {acc : List UInt64} {s t : UInt64}
    (h : Holds w acc) (h' : Holds w' (acc ++ [s])) (ht : w.wouldAccept t = true) (hne : t ≠ s)
    (hnear : s.toNat - t.toNat < 4096) : w'.wouldAccept t = true := by
  rw [h'.wouldAccept_iff, accepted_append]
  exact ((h.wouldAccept_iff t).mp ht).insert (fun he => hne (UInt64.toNat.inj he)) hnear

theorem Holds.seqSpan {w : ReplayWindow} {acc : List UInt64} (h : Holds w acc) (hne : acc ≠ [])
    {span : Option UInt64} (hs : w.seqSpan = .ok span) :
    ∃ q, span = some q ∧ (∃ s ∈ acc, s.toNat + 1 = q.toNat) ∧ ∀ s ∈ acc, s < q := by
  rcases h with ⟨-, he, -⟩ | ⟨hp, hmem, hr⟩
  · exact absurd he hne
  · simp only [ReplayWindow.seqSpan, hp, if_true, Checked.bind_eq_ok, Checked.pure_eq_ok] at hs
    obtain ⟨q, hq, rfl⟩ := hs
    have hnext : q.toNat = w.highest.toNat + 1 := Checked.addU64_eq_ok hq
    refine ⟨q, rfl, ⟨w.highest, hmem, hnext.symm⟩, fun s hs => ?_⟩
    have hle : s.toNat ≤ w.highest.toNat := hr.greatest.2 ⟨s, hs, rfl⟩
    exact UInt64.lt_iff_toNat_lt.mpr (by omega)

/-- One operation: what it adds to the accepted numbers. -/
theorem Holds.offer {w : ReplayWindow} {acc : List UInt64} (h : Holds w acc) {s : UInt64}
    (hs : s < u64Max) (authentic : Bool) :
    ∃ ok w', w.offer s authentic = .ok (ok, w') ∧ ok = (w.wouldAccept s && authentic) ∧
      Holds w' (if ok then acc ++ [s] else acc) := by
  unfold ReplayWindow.offer
  by_cases hc : (w.wouldAccept s && authentic) = true
  · obtain ⟨w', hw', hh⟩ := h.commit (.inl hs) (Bool.and_eq_true_iff.mp hc).1
    exact ⟨true, w', by simp [hc, hw', pure, Except.pure], hc.symm, hh⟩
  · have hf : (w.wouldAccept s && authentic) = false := Bool.eq_false_iff.mpr hc
    exact ⟨false, w, by simp [hf, pure, Except.pure], hf.symm, h⟩

/-- The numbers a sequence of operations commits extend the window's, and
none of them was committed before. -/
theorem Holds.offers {w : ReplayWindow} {acc : List UInt64} (h : Holds w acc) (hn : acc.Nodup)
    (ops : List (UInt64 × Bool)) (hops : ∀ op ∈ ops, op.1 < u64Max) :
    ∃ acc' w', w.offers ops = .ok (acc', w') ∧ Holds w' (acc ++ acc') ∧ (acc ++ acc').Nodup := by
  induction ops generalizing w acc with
  | nil => exact ⟨[], w, rfl, by simpa using h, by simpa using hn⟩
  | cons op ops ih =>
    obtain ⟨s, authentic⟩ := op
    obtain ⟨ok, w₁, hw₁, hok, hh₁⟩ := h.offer (hops (s, authentic) (by simp)) authentic
    have hrest : ∀ op ∈ ops, op.1 < u64Max := fun op hop => hops op (by simp [hop])
    cases ok with
    | false =>
      obtain ⟨acc', w', hw', hh', hn'⟩ := ih hh₁ hn hrest
      exact ⟨acc', w', by simp [ReplayWindow.offers, hw₁, hw', pure, Except.pure], hh', hn'⟩
    | true =>
      -- A committed number was accepted, so it was not in the window before.
      have hfresh : s ∉ acc := fun hmem => by simp [h.not_wouldAccept hmem] at hok
      have hn₁ : (acc ++ [s]).Nodup := List.nodup_append_comm.mpr (hn.cons hfresh)
      obtain ⟨acc', w', hw', hh', hn'⟩ := ih hh₁ hn₁ hrest
      refine ⟨s :: acc', w', by simp [ReplayWindow.offers, hw₁, hw', pure, Except.pure], ?_, ?_⟩
      · simpa using hh'
      · simpa using hn'

/-- **The replay window refines the set of accepted numbers.** Every
sequence of `would_accept`, each followed by a `commit` only when it
answered `true`, on numbers below `u64::MAX`, returns; afterwards
`would_accept` answers for every number what the abstract window of the
committed ones answers. In particular no number is committed twice, one
that was committed is refused, and a fresh one less than 4096 behind the
highest is accepted. -/
theorem wouldAccept_iff_accepts (ops : List (UInt64 × Bool)) (hops : ∀ op ∈ ops, op.1 < u64Max) :
    ∃ acc w, new.offers ops = .ok (acc, w) ∧
      (∀ s, w.wouldAccept s = true ↔ Accepts 4096 {n | ∃ t ∈ acc, t.toNat = n} s.toNat) ∧
      acc.Nodup ∧ (∀ s ∈ acc, w.wouldAccept s = false) ∧
      ∀ h ∈ acc, (∀ t ∈ acc, t ≤ h) → ∀ s, s ∉ acc → h.toNat - s.toNat < 4096 →
        w.wouldAccept s = true := by
  obtain ⟨acc, w, hw, hh, hn⟩ := holds_new.offers List.nodup_nil ops hops
  rw [List.nil_append] at hh hn
  refine ⟨acc, w, hw, hh.wouldAccept_iff, hn, fun s hs => hh.not_wouldAccept hs, ?_⟩
  intro h hmem hmax s hs hlt
  rw [hh.wouldAccept_iff]
  refine .inr ⟨h.toNat, ⟨⟨h, hmem, rfl⟩, ?_⟩, .inr ⟨?_, hlt⟩⟩
  · intro n hx
    obtain ⟨t, ht, rfl⟩ := hx
    exact UInt64.le_iff_toNat_le.mp (hmax t ht)
  · intro hx
    obtain ⟨t, ht, he⟩ := hx
    exact hs (UInt64.toNat.inj he ▸ ht)

/-- The window after 0, a jump to 5000, a replay of it and a forged 4999:
5000 is refused, 4999 is still accepted. -/
theorem wouldAccept_after_jump :
    ∃ acc w, new.offers [(0, true), (5000, true), (5000, true), (4999, false)] = .ok (acc, w) ∧
      acc = [0, 5000] ∧ w.wouldAccept 5000 = false ∧ w.wouldAccept 4999 = true := by
  have hops : ∀ op ∈ [(0, true), (5000, true), (5000, true), (4999, false)], op.1 < u64Max := by
    simp [u64Max]
  obtain ⟨acc, w, hw, -, -, hrep, hfresh⟩ := wouldAccept_iff_accepts _ hops
  have hacc : acc = [0, 5000] := by
    have : (new.offers [(0, true), (5000, true), (5000, true), (4999, false)]).map Prod.fst =
        .ok [0, 5000] := by decide +kernel
    rw [hw] at this
    simpa [Except.map] using this
  refine ⟨acc, w, hw, hacc, hrep _ (by simp [hacc]), ?_⟩
  exact hfresh 5000 (by simp [hacc]) (by simp [hacc]) 4999 (by simp [hacc]) (by decide)

end AtpExperiment.ReplayWindow
