/-
What can make the sender panic (`transfer`).

The counters of the spray loop bound each other. A round under way has given some
block a turn (`StreakInv.begun`), and a block that has a turn had one in every round
before (`StreakInv.streak`), each of two repair ids at least; the ids of a block are
below 2^24, so the round number stays far below 2^32. A packet is counted once it is
generated (`CountInv`), and at most 2^24 are for each block, so the count of packets
stays below 2^56. A batch is at most its segments, and the pacer's deadline is as far
ahead of the clock as the bytes sent take at its slowest rate (`PaceInv`). What is left
are the inputs: a codec that does not make one source block of a block or makes a symbol
too long, a Progress frame at the end of the clock, a receiver that lets the rounds go on
until the ids run out, a file of so many blocks that the bytes of their symbols overflow,
a symbol size beyond a UDP payload, and a rate that is next to nothing
(`sender_panics_only`).
-/
import AtpExperiment.AckSettle
import AtpExperiment.FeedbackArith
import AtpExperiment.RepairLimit
import AtpExperiment.SprayPath

namespace AtpExperiment

open Octets Aead Duplex

variable {rq : Raptorq} {enc : Encrypt} {cfg : SendCfg}

/-! ## Every round has a turn -/

/-- Block `b` had a turn in round `r`. -/
def SendState.Had (s : SendState rq) (b r : UInt32) : Prop :=
  ∃ t ∈ s.turns, t.round = r ∧ t.block = b

theorem SendStep.had {s s' : SendState rq} {a : Act Frame} {e : Option Sealed}
    (h : SendStep enc cfg s a e s') {b r : UInt32} (hb : s.Had b r) : s'.Had b r := by
  obtain ⟨t, ht, hr⟩ := hb
  exact ⟨t, h.turns ht, hr⟩

theorem Spray.of_mem_pending {v : Spray rq} {b : UInt32} (h : b ∈ v.pending cfg) :
    b < cfg.layout.numBlocks ∧ v.acked[b.toNat]? = some false := by
  obtain ⟨n, hn, rfl⟩ := List.mem_map.mp h
  obtain ⟨hlt, ha⟩ := List.mem_filter.mp hn
  have hlt := List.mem_range.mp hlt
  have hto : (UInt32.ofNat n).toNat = n :=
    UInt32.toNat_ofNat_of_lt' (hlt.trans cfg.layout.numBlocks.toNat_lt)
  refine ⟨UInt32.lt_iff_toNat_lt.mpr (by rwa [hto]), ?_⟩
  rw [hto]
  exact of_decide_eq_true ha

/-- In a round, up to its end. -/
def SendPc.inRound : SendPc → Bool
  | .blocks _ | .packets .. | .flush .. | .flushTail _ | .drain (.turn _) | .roundEnd => true
  | _ => false

theorem SendStep.inRound_from {s s' : SendState rq} {a : Act Frame} {e : Option Sealed}
    (h : SendStep enc cfg s a e s') (hr : s'.pc.inRound = true) : s.pc.inRound = true ∨
      ∃ b todo, s'.pc = .blocks (b :: todo) ∧ s'.v.acked[b.toNat]? ≠ some true := by
  cases h with
  | readerRead | readerFail | readerReturn | drainGo => exact .inl hr
  | @drainEmpty k h =>
    refine .inl ?_
    rcases SendState.resume_cases cfg s.v k with hk | ⟨todo, rfl, -⟩ | hk | hk
    · rw [hk] at hr; cases hr
    · rw [h]; rfl
    · rw [hk] at hr; cases hr
    · rw [hk] at hr; cases hr
  | selectBlocks h hp =>
    cases hpend : s.v.pending cfg with
    | nil => exact absurd (.inl hpend) hp
    | cons b todo =>
      have ha := (Spray.of_mem_pending (hpend ▸ List.mem_cons_self : b ∈ s.v.pending cfg)).2
      exact .inr ⟨b, todo, rfl, by rw [ha]; simp⟩
  | skip h | turn h | blocksEnd h | dropped h | queued h | packetsEnd h | flush h | flushTail h =>
    exact .inl (by rw [h]; rfl)
  | @hello ok | @manifest _ ok => cases ok <;> cases hr
  | _ => cases hr

theorem SendStep.round_moves {s s' : SendState rq} {a : Act Frame} {e : Option Sealed}
    (h : SendStep enc cfg s a e s') : s'.v.round = s.v.round ∨ s.pc = .roundEnd ∧
      ∃ round, Checked.addU32 s.v.round 1 = .ok round ∧
        s' = { s with v := { s.v with round }, pc := .settle } := by
  cases h with
  | roundEnd h hr => exact .inr ⟨h, _, hr, rfl⟩
  | drainGo _ _ hv =>
    obtain ⟨_, _, _, _, _, rfl⟩ := Spray.onFeedback_frame hv
    exact .inl rfl
  | turn _ _ hv =>
    obtain ⟨_, _, rfl⟩ := Spray.startTurn_frame hv
    exact .inl rfl
  | dropped _ hv | queued _ hv | encodeFail _ hv =>
    obtain ⟨_, _, _, _, _, _, rfl⟩ := Spray.sendPacket_frame hv
    exact .inl rfl
  | flush _ _ _ hg hv | flushTail _ _ _ hg hv =>
    obtain ⟨_, -, rfl⟩ := Spray.flushed_ok hg hv
    exact .inl rfl
  | _ => exact .inl rfl

/-- The sender sprays: it is in the loop over the blocks, or may come to it. -/
def SendState.Sprays (s : SendState rq) : Prop :=
  s.pc.todo ≠ none ∨ s.v.receiverGone = false

/-- Once the receiver is gone no round begins. -/
theorem SendStep.sprays_from {s s' : SendState rq} {a : Act Frame} {e : Option Sealed}
    (h : SendStep enc cfg s a e s') (hs : s'.Sprays) : s.Sprays := by
  cases h with
  | readerRead | readerFail | readerReturn => exact hs
  | drainGo _ _ hv =>
    obtain ⟨_, _, _, _, _, rfl⟩ := Spray.onFeedback_frame hv
    exact hs
  | @drainEmpty k h =>
    refine hs.imp_left fun ht => ?_
    rcases SendState.resume_cases cfg s.v k with hk | ⟨todo, rfl, -⟩ | hk | hk
    · rw [hk] at ht; exact absurd rfl ht
    · rw [h]; simp [SendPc.todo]
    · rw [hk] at ht; exact absurd rfl ht
    · rw [hk] at ht; exact absurd rfl ht
  | selectBlocks _ hp => exact .inr (by simpa using (not_or.mp hp).2)
  | skip h | turn h | blocksEnd h | dropped h | queued h | packetsEnd h | flush h | flushTail h
  | encodeFail h => exact .inl (by rw [h]; simp [SendPc.todo])
  | @hello ok | @manifest _ ok =>
    refine hs.imp_left fun ht => ?_
    cases ok <;> exact absurd rfl ht
  | _ => exact .inr (hs.resolve_left fun ht => ht rfl)

/-- The blocks of a round are blocks of the file; a round that ended gave some block a
turn, and one under way has, or is about to; and a block that has a turn, or is not
acked while the receiver is there, had one in every round before. -/
structure StreakInv (cfg : SendCfg) (s : SendState rq) : Prop where
  todo : ∀ todo, s.pc.todo = some todo → ∀ b ∈ todo, b < cfg.layout.numBlocks
  begun : s.pc.inRound = true → (∃ b, s.Turned b) ∨
    ∃ b todo, s.pc = .blocks (b :: todo) ∧ s.v.acked[b.toNat]? ≠ some true
  past : ∀ r, r < s.v.round → ∃ b, s.Had b r
  owed : s.Sprays → ∀ b, b < cfg.layout.numBlocks → s.v.acked[b.toNat]? ≠ some true →
    ∀ r, r < s.v.round → s.Had b r
  streak : ∀ t ∈ s.turns, t.block < cfg.layout.numBlocks ∧ ∀ r, r < t.round → s.Had t.block r

theorem streakInv_init (cfg : SendCfg) : StreakInv cfg (SendState.init rq cfg) where
  todo todo h := by cases h
  begun h := by cases h
  past r hr := absurd (UInt32.lt_iff_toNat_lt.mp hr) (Nat.not_lt_zero _)
  owed _ b _ _ r hr := absurd (UInt32.lt_iff_toNat_lt.mp hr) (Nat.not_lt_zero _)
  streak t ht := by cases ht

namespace SendStep

variable {s s' : SendState rq} {a : Act Frame} {e : Option Sealed}

theorem todo_lt (h : SendStep enc cfg s a e s') (hi : StreakInv cfg s) {todo : List UInt32}
    (ht : s'.pc.todo = some todo) : ∀ b ∈ todo, b < cfg.layout.numBlocks := by
  rcases h.todo_from ht with hpc | ⟨-, rfl⟩ | ⟨b', hpc, -⟩
  · exact hi.todo todo hpc
  · exact fun b hb => (Spray.of_mem_pending hb).1
  · exact fun b hb => hi.todo _ (by rw [hpc]; rfl) b (List.mem_cons_of_mem _ hb)

theorem begun (h : SendStep enc cfg s a e s') (hi : StreakInv cfg s)
    (hr : s'.pc.inRound = true) : (∃ b, s'.Turned b) ∨
      ∃ b todo, s'.pc = .blocks (b :: todo) ∧ s'.v.acked[b.toNat]? ≠ some true := by
  rcases h.inRound_from hr with hin | hnew
  · have hround : s'.v.round = s.v.round := by
      rcases h.round_moves with hround | ⟨-, round, -, rfl⟩
      · exact hround
      · cases hr
    rcases hi.begun hin with ⟨b, hb⟩ | ⟨b, todo, hpc, ha⟩
    · refine .inl ⟨b, ?_⟩
      obtain ⟨t, ht, htr, htb⟩ := hb
      exact ⟨t, h.turns ht, htr.trans hround.symm, htb⟩
    · rcases h.served hpc ha with hsame | hpanic | hturned
      · -- A step of the reader task, which leaves the acks.
        refine .inr ⟨b, todo, hsame.trans hpc, ?_⟩
        rcases h.drain_cases with ⟨m, hm, -⟩ | ⟨-, hack, -⟩
        · simp [SendState.drained, hpc] at hm
        · rwa [hack]
      · rw [hpanic] at hr
        cases hr
      · exact .inl ⟨b, hturned⟩
  · exact .inr hnew

theorem eq_or_lt_of_lt_succ {r round next : UInt32} (hadd : Checked.addU32 round 1 = .ok next)
    (h : r < next) : r = round ∨ r < round := by
  have hsucc := Checked.addU32_eq_ok hadd
  have hone : (1 : UInt32).toNat = 1 := rfl
  have hlt := UInt32.lt_iff_toNat_lt.mp h
  by_cases hr : r.toNat < round.toNat
  · exact .inr (UInt32.lt_iff_toNat_lt.mpr hr)
  · exact .inl (UInt32.toNat.inj (by omega))

theorem past (h : SendStep enc cfg s a e s') (hi : StreakInv cfg s) {r : UInt32}
    (hlt : r < s'.v.round) : ∃ b, s'.Had b r := by
  have hold : r < s.v.round → ∃ b, s'.Had b r := fun hlt => by
    obtain ⟨b, hb⟩ := hi.past r hlt
    exact ⟨b, h.had hb⟩
  rcases h.round_moves with hround | ⟨hpc, round, hadd, rfl⟩
  · rw [hround] at hlt
    exact hold hlt
  · rcases eq_or_lt_of_lt_succ hadd hlt with rfl | hlast
    · rcases hi.begun (by rw [hpc]; rfl) with ⟨b, hb⟩ | ⟨b, todo, hpc', -⟩
      · exact ⟨b, hb⟩
      · cases hpc.symm.trans hpc'
    · exact hold hlast

theorem owed (h : SendStep enc cfg s a e s') (hr : RoundInv cfg s) (hi : StreakInv cfg s)
    (hs : s'.Sprays) {b : UInt32} (hb : b < cfg.layout.numBlocks)
    (ha : s'.v.acked[b.toNat]? ≠ some true) {r : UInt32} (hlt : r < s'.v.round) : s'.Had b r := by
  have ha₀ : s.v.acked[b.toNat]? ≠ some true := fun hx => ha (h.acked_mono.2 b hx)
  have hold := hi.owed (h.sprays_from hs) b hb ha₀ r
  rcases h.round_moves with hround | ⟨hpc, round, hadd, rfl⟩
  · rw [hround] at hlt
    exact h.had (hold hlt)
  · rcases eq_or_lt_of_lt_succ hadd hlt with rfl | hlast
    · -- The round that ends: every unacked block had its turn, as the receiver is there.
      have hgone : s.v.receiverGone = false := hs.resolve_left fun ht => ht rfl
      rcases hr.ended hpc with hg | hcov
      · rw [hgone] at hg
        cases hg
      · rcases hcov b hb with hmem | hturned | hack
        · cases hmem
        · exact hturned
        · exact absurd hack ha₀
    · exact h.had (hold hlast)

theorem streak (h : SendStep enc cfg s a e s') (hi : StreakInv cfg s) {t : Turn}
    (ht : t ∈ s'.turns) :
    t.block < cfg.layout.numBlocks ∧ ∀ r, r < t.round → s'.Had t.block r := by
  have hold : t ∈ s.turns →
      t.block < cfg.layout.numBlocks ∧ ∀ r, r < t.round → s'.Had t.block r := fun ht =>
    ⟨(hi.streak t ht).1, fun r hr => h.had ((hi.streak t ht).2 r hr)⟩
  rcases h.turn_or with ⟨b, todo, pkts, hpc, ha, -, -, hturns⟩ | ⟨hturns, -, -⟩
  · rw [hturns] at ht
    rcases List.mem_append.mp ht with ht | ht
    · exact hold ht
    · rw [List.mem_singleton.mp ht]
      have htodo : s.pc.todo = some (b :: todo) := by rw [hpc]; rfl
      have hb := hi.todo _ htodo b List.mem_cons_self
      exact ⟨hb, fun r hr => h.had (hi.owed (.inl (by simp [htodo])) b hb ha r hr)⟩
  · rw [hturns] at ht
    exact hold ht

theorem streakInv (h : SendStep enc cfg s a e s') (hr : RoundInv cfg s) (hi : StreakInv cfg s) :
    StreakInv cfg s' where
  todo _ ht := h.todo_lt hi ht
  begun := h.begun hi
  past _ hlt := h.past hi hlt
  owed hs _ hb ha _ hlt := h.owed hr hi hs hb ha hlt
  streak _ ht := h.streak hi ht

end SendStep

theorem streak_of_reachable {s : SendState rq}
    (h : Runs.Reachable (· = SendState.init rq cfg) (SendNext enc cfg) s) : StreakInv cfg s := by
  refine h.invariant_of (fun s hs => (repair_of_reachable hs).2.2) (StreakInv cfg) ?_ ?_
  · rintro s rfl
    exact streakInv_init cfg
  · rintro s s' hr - hi ⟨a, e, hstep⟩
    exact hstep.streakInv hr hi

/-! ## Turns and ids -/

namespace Sprayed

variable {be : rq.BlockEncoder} {k next : Nat} {ts : List Turn}

theorem two_le_leastRepair (round : UInt32) : 2 ≤ leastRepair round := by
  unfold leastRepair
  split <;> decide

theorem two_mul_length_le (h : Sprayed be k ts next) : 2 * ts.length ≤ next := by
  induction h with
  | nil => exact Nat.le_refl 0
  | @snoc ts t next n repair h hround hleast hmost hrep hpkts ih =>
    have := two_le_leastRepair t.round
    rw [List.length_append, List.length_singleton]
    omega

theorem next_in_range (hrq : rq.Numbered) (h : Sprayed be k ts next) (hne : ts ≠ []) :
    (rq.sourcePackets be).length + next ≤ 2 ^ 24 := by
  cases h with
  | nil => exact absurd rfl hne
  | @snoc ts t next n repair h hround hleast hmost hrep hpkts =>
    have hpos : 0 < n := by
      have := two_le_leastRepair t.round
      omega
    rw [← Nat.add_assoc]
    exact hrq.range_le hpos hrep

theorem length_ids_le (hrq : rq.Numbered) (h : Sprayed be k ts next) :
    (ids ts).length ≤ (rq.sourcePackets be).length + next := by
  obtain ⟨hlt, hnodup⟩ := h.ids_fresh hrq
  have hsub : ids ts ⊆ List.range ((rq.sourcePackets be).length + next) := fun i hi =>
    List.mem_range.mpr (hlt i hi)
  simpa using (hnodup.subperm hsub).length_le

end Sprayed

namespace SendState

variable {s : SendState rq} {b : UInt32} {next : Nat}

theorem Numbers.turns_le (hrq : rq.Numbered) (h : s.Numbers cfg b next) :
    (s.turnsOf b).length ≤ 2 ^ 23 := by
  rcases h with ⟨hnil, -⟩ | ⟨k, e, be, bes, -, -, -, h⟩
  · rw [hnil]
    exact Nat.zero_le _
  · by_cases hne : s.turnsOf b = []
    · rw [hne]
      exact Nat.zero_le _
    · have := h.two_mul_length_le
      have := h.next_in_range hrq hne
      omega

theorem Numbers.packets_le (hrq : rq.Numbered) (h : s.Numbers cfg b next) :
    ((s.turnsOf b).flatMap (·.packets)).length ≤ 2 ^ 24 := by
  rcases h with ⟨hnil, -⟩ | ⟨k, e, be, bes, -, -, -, h⟩
  · rw [hnil]
    exact Nat.zero_le _
  · by_cases hne : s.turnsOf b = []
    · rw [hne]
      exact Nat.zero_le _
    · have hids := h.length_ids_le hrq
      have hrange := h.next_in_range hrq hne
      have hlen : (Sprayed.ids (s.turnsOf b)).length =
          ((s.turnsOf b).flatMap (·.packets)).length := by
        rw [Sprayed.ids, ← List.map_flatMap, List.length_map]
      omega

theorem le_turnsOf {n : Nat} (hn : n ≤ 2 ^ 32) (h : ∀ r : UInt32, r.toNat < n → s.Had b r) :
    n ≤ (s.turnsOf b).length := by
  have hsub : List.range n ⊆ (s.turnsOf b).map (·.round.toNat) := fun i hi => by
    have hi := List.mem_range.mp hi
    have hto : (UInt32.ofNat i).toNat = i := UInt32.toNat_ofNat_of_lt' (hi.trans_le hn)
    obtain ⟨t, ht, hr, hb⟩ := h (UInt32.ofNat i) (by rwa [hto])
    refine List.mem_map.mpr ⟨t, List.mem_filter.mpr ⟨ht, decide_eq_true hb⟩, ?_⟩
    rw [hr, hto]
  simpa using (List.nodup_range.subperm hsub).length_le

end SendState

/-- The rounds begun are few, since each gave some block a turn. -/
theorem StreakInv.round_le {s : SendState rq} (hi : StreakInv cfg s) (hn : RepairInv cfg s)
    (hrq : rq.Numbered) : s.v.round.toNat ≤ 2 ^ 23 := by
  by_cases hz : s.v.round.toNat = 0
  · omega
  have hlast : (s.v.round - 1).toNat = s.v.round.toNat - 1 :=
    UInt32.toNat_sub_of_le _ _ (UInt32.le_iff_toNat_le.mpr (by
      have hone : (1 : UInt32).toNat = 1 := rfl
      omega))
  obtain ⟨b, t, ht, hr, rfl⟩ := hi.past (s.v.round - 1)
    (UInt32.lt_iff_toNat_lt.mpr (by rw [hlast]; omega))
  obtain ⟨hb, hstreak⟩ := hi.streak t ht
  obtain ⟨next, -, hnum⟩ := hn.numbers hb
  refine (SendState.le_turnsOf s.v.round.toNat_lt.le fun r hlt => ?_).trans (hnum.turns_le hrq)
  by_cases hrt : r = t.round
  · exact ⟨t, ht, hrt.symm, rfl⟩
  · refine hstreak r (UInt32.lt_iff_toNat_lt.mpr ?_)
    have hne : r.toNat ≠ t.round.toNat := fun he => hrt (UInt32.toNat.inj he)
    rw [hr, hlast] at hne ⊢
    omega

/-! ## Packets and bytes -/

theorem SendCfg.seg_lt (cfg : SendCfg) : cfg.seg < 2 ^ 17 := by
  have hs : cfg.layout.symbolSize.toNat < 2 ^ 16 := cfg.layout.symbolSize.toNat_lt
  unfold seg TxPlane.wireLen
  split
  · simp only [Datagram.headerLen]
    omega
  · simp only [Sealed.overhead, Sealed.headerLen, Sealed.tagLen]
    omega

theorem SendCfg.toNat_seg (cfg : SendCfg) : (UInt64.ofNat cfg.seg).toNat = cfg.seg :=
  UInt64.toNat_ofNat_of_lt' (cfg.seg_lt.trans (by decide))

/-- A step leaves the counts, or takes the first packet still to come and counts it, and
its bytes if it is put into the batch. -/
theorem SendStep.counts {s s' : SendState rq} {a : Act Frame} {e : Option Sealed}
    (h : SendStep enc cfg s a e s') :
    (s'.v.packetsSent = s.v.packetsSent ∧ s'.v.bytesSent = s.v.bytesSent) ∨
      s'.turns = s.turns ∧ s'.pc.rest.length + 1 ≤ s.pc.rest.length ∧
      Checked.addU64 s.v.packetsSent 1 = .ok s'.v.packetsSent ∧
      (s'.v.bytesSent = s.v.bytesSent ∨
        Checked.addU64 s.v.bytesSent (UInt64.ofNat cfg.seg) = .ok s'.v.bytesSent) := by
  cases h with
  | drainGo _ _ hv =>
    obtain ⟨_, _, _, _, _, rfl⟩ := Spray.onFeedback_frame hv
    exact .inl ⟨rfl, rfl⟩
  | turn _ _ hv =>
    obtain ⟨_, _, rfl⟩ := Spray.startTurn_frame hv
    exact .inl ⟨rfl, rfl⟩
  | dropped h hv =>
    obtain ⟨n, rng, hn, hout | he⟩ := Spray.sendPacket_cases hv
    · cases hout
      exact .inr ⟨rfl, by simp [h, SendPc.rest], hn, .inl rfl⟩
    · rcases Spray.encodePacket_cases he with ⟨-, bytes, hq⟩ | ⟨-, hq⟩ <;> cases hq
  | queued h hv =>
    obtain ⟨n, rng, bytes, hn, hbytes, -, rfl⟩ := Spray.sendPacket_queued hv
    refine .inr ⟨rfl, ?_, hn, .inr hbytes⟩
    simp only [h]
    split <;> simp [SendPc.rest]
  | encodeFail h hv =>
    obtain ⟨n, rng, hn, hout | he⟩ := Spray.sendPacket_cases hv
    · cases hout
    · rcases Spray.encodePacket_cases he with ⟨-, bytes, hq⟩ | ⟨-, hq⟩ <;> cases hq
      exact .inr ⟨rfl, by simp [h, SendPc.rest, SendState.fail], hn, .inl rfl⟩
  | flush _ _ _ hg hv | flushTail _ _ _ hg hv =>
    obtain ⟨_, -, rfl⟩ := Spray.flushed_ok hg hv
    exact .inl ⟨rfl, rfl⟩
  | _ => exact .inl ⟨rfl, rfl⟩

/-- Every packet counted was generated and is not still to come, and every byte counted
is of such a packet. -/
structure CountInv (cfg : SendCfg) (s : SendState rq) : Prop where
  packets : s.v.packetsSent.toNat + s.pc.rest.length ≤ s.made.length
  bytes : s.v.bytesSent.toNat ≤ s.v.packetsSent.toNat * cfg.seg

theorem SendStep.countInv {s s' : SendState rq} {a : Act Frame} {e : Option Sealed}
    (h : SendStep enc cfg s a e s') (hi : CountInv cfg s) : CountInv cfg s' := by
  have hone : (1 : UInt64).toNat = 1 := rfl
  rcases h.counts with ⟨hp, hb⟩ | ⟨hturns, hrest, hp, hb⟩
  · obtain ⟨new, hmade, hsub⟩ := h.moved
    have hlen := hsub.length_le
    have := hi.packets
    rw [List.length_append, List.length_append] at hlen
    refine ⟨?_, by rw [hp, hb]; exact hi.bytes⟩
    rw [hp, hmade, List.length_append]
    omega
  · have hmade : s'.made = s.made := by rw [SendState.made, hturns, SendState.made]
    have hp := Checked.addU64_eq_ok hp
    have := hi.packets
    refine ⟨by rw [hmade]; omega, ?_⟩
    rw [hp, hone, Nat.add_mul, Nat.one_mul]
    have := hi.bytes
    rcases hb with hb | hb
    · rw [hb]
      omega
    · rw [Checked.addU64_eq_ok hb, cfg.toNat_seg]
      omega

theorem count_of_reachable {s : SendState rq}
    (h : Runs.Reachable (· = SendState.init rq cfg) (SendNext enc cfg) s) : CountInv cfg s := by
  refine h.invariant (CountInv cfg) ?_ ?_
  · rintro s rfl
    exact ⟨Nat.zero_le _, Nat.zero_le _⟩
  · rintro s s' hi ⟨a, e, hstep⟩
    exact hstep.countInv hi

/-- A list that falls into `n` classes of at most `m` has at most `n * m` elements. -/
theorem length_le_of_classes {α : Type*} (f : α → Nat) {n m : Nat} {l : List α}
    (hf : ∀ x ∈ l, f x < n) (hm : ∀ i, i < n → (l.filter (f · = i)).length ≤ m) :
    l.length ≤ n * m := by
  induction n generalizing l with
  | zero =>
    cases l with
    | nil => exact Nat.zero_le _
    | cons x l => exact absurd (hf x List.mem_cons_self) (Nat.not_lt_zero _)
  | succ n ih =>
    -- The last class, and the others.
    have hsplit := List.length_eq_length_filter_add (l := l) fun x => decide (f x = n)
    have hlast := hm n (Nat.lt_succ_self n)
    have hrest : (l.filter fun x => ! decide (f x = n)).length ≤ n * m := by
      refine ih (fun x hx => ?_) fun i hi => ?_
      · obtain ⟨hx, hne⟩ := List.mem_filter.mp hx
        have hlt := hf x hx
        have hne : f x ≠ n := by simpa using hne
        omega
      · exact ((List.filter_sublist.filter _).length_le).trans (hm i (Nat.lt_succ_of_lt hi))
    rw [Nat.succ_mul]
    omega

/-- The packets of a run: at most 2^24 for each block. -/
theorem StreakInv.made_le {s : SendState rq} (hi : StreakInv cfg s) (hn : RepairInv cfg s)
    (hrq : rq.Numbered) : s.made.length ≤ cfg.layout.numBlocks.toNat * 2 ^ 24 := by
  refine length_le_of_classes (·.1.toNat) (fun x hx => ?_) fun i hi => ?_
  · obtain ⟨t, ht, hx⟩ := List.mem_flatMap.mp hx
    obtain ⟨p, -, rfl⟩ := List.mem_map.mp hx
    exact UInt32.lt_iff_toNat_lt.mp (hi.streak t ht).1
  · have hto : (UInt32.ofNat i).toNat = i :=
      UInt32.toNat_ofNat_of_lt' (hi.trans cfg.layout.numBlocks.toNat_lt)
    obtain ⟨next, -, hnum⟩ := hn.numbers (b := UInt32.ofNat i)
      (UInt32.lt_iff_toNat_lt.mpr (by rwa [hto]))
    have hclass : s.made.filter (fun x => decide (x.1.toNat = i)) =
        s.made.filter (fun x => decide (x.1 = UInt32.ofNat i)) :=
      List.filter_congr fun x _ => by rw [decide_eq_decide, ← UInt32.toNat_inj, hto]
    have hlen := congrArg List.length (s.filter_made (UInt32.ofNat i))
    rw [List.length_map] at hlen
    rw [hclass, hlen]
    exact hnum.packets_le hrq

/-! ## What the sender hears -/

/-- A run of the sender leads to `s`, and read `frames` in it. -/
def SendReads (enc : Encrypt) (cfg : SendCfg) : SendState rq → List Frame → Prop :=
  Runs.Emits (· = SendState.init rq cfg) Act.got fun s a t => ∃ e, SendStep enc cfg s a e t

theorem SendReads.reachable {s : SendState rq} {frames : List Frame}
    (h : SendReads enc cfg s frames) :
    Runs.Reachable (· = SendState.init rq cfg) (SendNext enc cfg) s := by
  induction h with
  | start h => exact .start h
  | next _ hst ih =>
    obtain ⟨e, hstep⟩ := hst
    exact ih.next ⟨_, e, hstep⟩

/-- The times a controller keeps are those of Progress frames. -/
structure RateController.Heard (frames : List Frame) (c : RateController) : Prop where
  seg : c.seg ≠ 0
  times : ∀ x ∈ c.delivered, ∃ pkts span, .progress pkts span x.1 ∈ frames

theorem RateController.Heard.mono {frames frames' : List Frame} {c : RateController}
    (h : c.Heard frames) (hsub : frames ⊆ frames') : c.Heard frames' where
  seg := h.seg
  times x hx := by
    obtain ⟨pkts, span, hf⟩ := h.times x hx
    exact ⟨pkts, span, hsub hf⟩

/-- A Progress frame within 2.5 s of the end of the clock. -/
def EndOfClock (frames : List Frame) : Prop :=
  ∃ pkts span tMs, .progress pkts span tMs ∈ frames ∧ 2 ^ 64 ≤ tMs.toNat + 2500

namespace Spray

variable {v v' : Spray rq} {frames : List Frame}

theorem onProgress_heard {pkts tMs : UInt64} {span : Option UInt64}
    (hc : ∀ c, v.ctrl = some c → c.Heard frames) (hf : .progress pkts span tMs ∈ frames) :
    (∃ v', v.onFeedback (.progress pkts span tMs) = .ok (.go v') ∧
      ∀ c', v'.ctrl = some c' → (∃ c, v.ctrl = some c) ∧ c'.Heard frames) ∨
    ∃ p, v.onFeedback (.progress pkts span tMs) = .error p ∧ (∃ c, v.ctrl = some c) ∧
      EndOfClock frames := by
  let f : ProgressFrame := ⟨pkts, span, tMs, v.packetsSent, v.bytesSent⟩
  rcases v.onProgress_cases f with ⟨-, v', hv, hctrl⟩ | ⟨c, hp, hsome, hr⟩
  · exact .inl ⟨v', hv, fun c' hc' => by rw [hctrl] at hc'; exact ⟨⟨c', hc'⟩, hc c' hc'⟩⟩
  have hheard := hc c hsome
  rcases hr with ⟨out, c', v', hr, hv, hctrl⟩ | ⟨p, hr, hv⟩
  · refine .inl ⟨v', hv, fun c₁ hc₁ => ⟨⟨c, hsome⟩, ?_⟩⟩
    cases hctrl.symm.trans hc₁
    obtain ⟨e, ht⟩ := RateController.report_takes hr
    refine ⟨by rw [ht.seg]; exact hheard.seg, fun x hx => ?_⟩
    rcases ht.mem_delivered x hx with hx | hx
    · exact hheard.times x hx
    · rw [hx]
      exact ⟨pkts, span, hf⟩
  · refine .inr ⟨p, hv, ⟨c, hsome⟩, ?_⟩
    rcases RateController.report_ok_or hheard.seg f.report with ⟨out, c', hok⟩ | ⟨-, σ, -, -, hds⟩
    · cases hr.symm.trans hok
    rcases RateController.expire_ok_or f.report.tMs
        (c.delivered ++ [(f.report.tMs, σ.delivered)]) with ⟨ds, hok⟩ | ⟨-, x, hx, hle⟩
    · cases hds.symm.trans hok
    rcases List.mem_append.mp hx with hx | hx
    · obtain ⟨pkts', span', hf'⟩ := hheard.times x hx
      exact ⟨pkts', span', x.1, hf', hle⟩
    · rw [List.mem_singleton.mp hx] at hle
      exact ⟨pkts, span, tMs, hf, hle⟩

theorem onDecoded_ctrl {i : UInt32} (h : v.onFeedback (.decoded i) = .ok (.go v')) :
    v'.ctrl = v.ctrl := by
  simp only [onFeedback] at h
  split at h
  · simp only [Checked.bind_eq_ok] at h
    obtain ⟨n, -, h⟩ := h
    cases h
    rfl
  · cases h
    rfl

theorem onFeedback_heard {m : Feedback} (hc : ∀ c, v.ctrl = some c → c.Heard frames)
    (hm : ∀ f, m.source = some f → f ∈ frames) (h : v.onFeedback m = .ok (.go v'))
    {c' : RateController} (hc' : v'.ctrl = some c') :
    (∃ c, v.ctrl = some c) ∧ c'.Heard frames := by
  cases m with
  | decoded i =>
    rw [onDecoded_ctrl h] at hc'
    exact ⟨⟨c', hc'⟩, hc c' hc'⟩
  | done ok error => cases h
  | closed got => cases h
  | progress pkts span tMs =>
    rcases onProgress_heard hc (hm _ rfl) with ⟨v₁, hv, hall⟩ | ⟨p, hv, -⟩
    · cases h.symm.trans hv
      exact hall c' hc'
    · cases h.symm.trans hv

/-- A message that panics is a report, in adaptive mode, and a time heard is at the end
of the clock. -/
theorem onFeedback_panic {m : Feedback} {ms : List Feedback} {p : Panic} (ha : AckInv cfg ms v)
    (hc : ∀ c, v.ctrl = some c → c.Heard frames) (hm : ∀ f, m.source = some f → f ∈ frames)
    (h : v.onFeedback m = .error p) : (∃ c, v.ctrl = some c) ∧ EndOfClock frames := by
  cases m with
  | decoded i =>
    obtain ⟨v', hv, -⟩ := ha.decoded i
    cases h.symm.trans hv
  | done ok error => cases h
  | closed got => cases h
  | progress pkts span tMs =>
    rcases onProgress_heard hc (hm _ rfl) with ⟨v₁, hv, -⟩ | ⟨-, -, hend⟩
    · cases h.symm.trans hv
    · exact hend

end Spray

/-- Messages, and the times the controller keeps, are of frames read. -/
structure HeardInv (cfg : SendCfg) (s : SendState rq) (frames : List Frame) : Prop where
  chan : ∀ m ∈ s.chan, ∀ f, m.source = some f → f ∈ frames
  mode : (∃ c, s.v.ctrl = some c) → cfg.rateMbps = none
  ctrl : ∀ c, s.v.ctrl = some c → c.Heard frames

theorem heardInv_init (cfg : SendCfg) : HeardInv cfg (SendState.init rq cfg) [] where
  chan m hm := by cases hm
  mode := by
    rintro ⟨c, hc⟩
    cases hr : cfg.rateMbps with
    | none => rfl
    | some mbps => simp [SendState.init, Spray.new, hr] at hc
  ctrl c hc := by
    cases hr : cfg.rateMbps with
    | none =>
      obtain rfl : RateController.new cfg.seg cfg.maxRateMbps = c := by
        simpa [SendState.init, Spray.new, hr] using hc
      exact ⟨(ctrlInv_new cfg).seg, fun x hx => by cases hx⟩
    | some mbps => simp [SendState.init, Spray.new, hr] at hc

theorem SendStep.heardInv {s s' : SendState rq} {a : Act Frame} {e : Option Sealed}
    {frames : List Frame} (h : SendStep enc cfg s a e s') (hi : HeardInv cfg s frames) :
    HeardInv cfg s' (frames ++ a.got) := by
  have hsub : frames ⊆ frames ++ a.got := List.subset_append_left frames a.got
  have hctrl : ∀ c', s'.v.ctrl = some c' → (∃ c, s.v.ctrl = some c) ∧ c'.Heard frames := by
    intro c' hc'
    rcases h.spray.feedback_or with ⟨m, hm, hv⟩ | ⟨-, hsame, -⟩
    · exact Spray.onFeedback_heard hi.ctrl (hi.chan m hm) hv hc'
    · rw [hsame] at hc'
      exact ⟨⟨c', hc'⟩, hi.ctrl c' hc'⟩
  refine ⟨fun m hm f hf => ?_, ?_, fun c' hc' => (hctrl c' hc').2.mono hsub⟩
  · rcases h.chan hm hf with hm | rfl
    · exact hsub (hi.chan m hm f hf)
    · exact List.mem_append_right _ (List.mem_singleton.mpr rfl)
  · rintro ⟨c', hc'⟩
    exact hi.mode (hctrl c' hc').1

/-! ## Batches and their deadlines -/

/-- The codec made a symbol longer than the symbol size. -/
def SendState.Oversize (cfg : SendCfg) (s : SendState rq) : Prop :=
  ∃ x ∈ s.made, cfg.layout.symbolSize.toNat < x.2.data.length

theorem SendStep.oversize {s s' : SendState rq} {a : Act Frame} {e : Option Sealed}
    (h : SendStep enc cfg s a e s') (ho : s.Oversize cfg) : s'.Oversize cfg := by
  obtain ⟨new, hmade, -⟩ := h.moved
  obtain ⟨x, hx, hlt⟩ := ho
  exact ⟨x, by rw [hmade]; exact List.mem_append_left _ hx, hlt⟩

theorem mem_made_of_packetsOf {s : SendState rq} {b : UInt32} {ps : List EncodingPacket}
    (hs : Runs.Reachable (· = SendState.init rq cfg) (SendNext enc cfg) s)
    (h : s.pc.packetsOf = some (b, ps)) {p : EncodingPacket} (hp : p ∈ ps) : (b, p) ∈ s.made := by
  have hrest : s.pc.rest = ps.map (b, ·) := by
    cases hpc : s.pc with
    | packets | flush =>
      rw [hpc] at h
      cases h
      rfl
    | _ =>
      rw [hpc] at h
      cases h
  obtain ⟨out, hout⟩ := exists_puts hs
  refine hout.sublist.subset (List.mem_append_right _ ?_)
  rw [hrest]
  exact List.mem_map_of_mem hp

/-- The least rate of the pacer. -/
def SendCfg.slowest (cfg : SendCfg) : ℚ :=
  cfg.rateMbps.elim Rate.minRateBps fun mbps => mbps * 1000000 / 8

/-- The pacer is at least at that rate, and at that rate when it is fixed. -/
structure RateInv (cfg : SendCfg) (v : Spray rq) : Prop where
  least : cfg.slowest ≤ v.pacer.bytesPerSec
  fixed : cfg.rateMbps ≠ none → v.ctrl = none ∧ v.pacer.bytesPerSec = cfg.slowest
  bounded : ∀ c, v.ctrl = some c → c.Bounded

theorem rateInv_new (rq : Raptorq) (cfg : SendCfg) : RateInv cfg (Spray.new rq cfg) := by
  cases hr : cfg.rateMbps with
  | some mbps =>
    refine ⟨le_of_eq ?_, fun _ => ⟨?_, ?_⟩, fun c hc => ?_⟩
    · simp [SendCfg.slowest, Spray.new, hr, Pacer.newMbps, Pacer.newBps]
    · simp [Spray.new, hr]
    · simp [SendCfg.slowest, Spray.new, hr, Pacer.newMbps, Pacer.newBps]
    · simp [Spray.new, hr] at hc
  | none =>
    refine ⟨?_, fun h => absurd hr h, fun c hc => ?_⟩
    · simp only [SendCfg.slowest, Spray.new, hr, Pacer.newBps, Option.elim]
      norm_num [Rate.minRateBps, Rate.startRateBps]
    · obtain rfl : RateController.new cfg.seg cfg.maxRateMbps = c := by
        simpa [Spray.new, hr] using hc
      exact RateController.bounded_new _ _

theorem SprayStep.rateInv {chan : List Feedback} {v v' : Spray rq} {e : Option Sealed}
    (h : SprayStep enc cfg chan v e v') (hi : RateInv cfg v) : RateInv cfg v' := by
  rcases h.pacing with ⟨hbps, hctrl⟩ | ⟨c, r, c', hc, hc', hr, hbps⟩
  · exact ⟨by rw [hbps]; exact hi.least, by rw [hbps, hctrl]; exact hi.fixed,
      by rw [hctrl]; exact hi.bounded⟩
  -- A report is heard in adaptive mode only.
  have hmode : cfg.rateMbps = none := by
    by_contra hne
    rw [(hi.fixed hne).1] at hc
    cases hc
  have hb := hr.bounded (hi.bounded c hc)
  refine ⟨?_, fun h => absurd hmode h, fun c₁ hc₁ => ?_⟩
  · rw [hbps, hr.rate]
    split
    · rw [SendCfg.slowest, hmode]
      exact hb.low
    · exact hi.least
  · cases hc'.symm.trans hc₁
    exact hb

theorem rate_of_reachable {s : SendState rq}
    (h : Runs.Reachable (· = SendState.init rq cfg) (SendNext enc cfg) s) : RateInv cfg s.v := by
  refine h.invariant (fun s => RateInv cfg s.v) ?_ ?_
  · rintro s rfl
    exact rateInv_new rq cfg
  · rintro s s' hi ⟨a, e, hst⟩
    exact hst.spray.rateInv hi

/-- What `pace` does at a positive rate: it starts from the clock or from the deadline, and
the next deadline is there, or past the end of the clock. -/
theorem Pacer.pace_cases (p : Pacer) (now : ℚ) (len : Nat) (hpos : 0 < p.bytesPerSec) :
    ∃ start, (start ≤ now ∨ ∃ d ∈ p.next, start ≤ d) ∧ now - Rate.maxBurst ≤ start ∧
      ((∃ p' sleep, p.pace now len = .ok (p', sleep) ∧
          p'.next = some (start + len / p.bytesPerSec)) ∨
        (∃ e, p.pace now len = .error e) ∧
          (2 ^ 64 ≤ (len : ℚ) / p.bytesPerSec ∨ instantEnd ≤ start + len / p.bytesPerSec)) := by
  have hburst : (0 : ℚ) ≤ Rate.maxBurst := by norm_num [Rate.maxBurst]
  refine ⟨p.next.elim now fun d => max d (now - Rate.maxBurst), ?_, ?_, ?_⟩
  · cases hn : p.next with
    | none => exact .inl le_rfl
    | some d =>
      rcases le_total (now - Rate.maxBurst) d with hle | hle
      · exact .inr ⟨d, rfl, (max_eq_left hle).le⟩
      · exact .inl ((max_eq_right hle).le.trans (by linarith))
  · cases p.next with
    | none => exact sub_le_self now hburst
    | some d => exact le_max_right _ _
  · by_cases hsecs : 2 ^ 64 ≤ (len : ℚ) / p.bytesPerSec
    · refine .inr ⟨⟨.assertion, ?_⟩, .inl hsecs⟩
      rw [pace, if_neg (not_le.mpr hpos), if_pos hsecs]
      rfl
    by_cases hend : instantEnd ≤
        (p.next.elim now fun d => max d (now - Rate.maxBurst)) + len / p.bytesPerSec
    · refine .inr ⟨⟨.overflow, ?_⟩, .inr hend⟩
      rw [pace, if_neg (not_le.mpr hpos), if_neg hsecs, if_pos hend]
      rfl
    · refine .inl ⟨_, _, by rw [pace, if_neg (not_le.mpr hpos), if_neg hsecs, if_neg hend]; rfl,
        rfl⟩

/-- How far the deadline is past 2^61 s, in bytes at the slowest rate. -/
def Spray.owed (cfg : SendCfg) (v : Spray rq) : ℚ :=
  v.pacer.next.elim 0 fun d => max 0 (d - 2 ^ 61) * cfg.slowest

theorem Spray.owed_start {v : Spray rq} (hr : RateInv cfg v) (hpos : 0 < cfg.slowest)
    {now : Instant} {start : ℚ} (hs : start ≤ now.secs ∨ ∃ d ∈ v.pacer.next, start ≤ d)
    (len : Nat) : max 0 (start + len / v.pacer.bytesPerSec - 2 ^ 61) * cfg.slowest ≤
      v.owed cfg + len := by
  have hrate : 0 < v.pacer.bytesPerSec := hpos.trans_le hr.least
  have hlen : (len : ℚ) / v.pacer.bytesPerSec * cfg.slowest ≤ len := by
    rw [div_mul_eq_mul_div, div_le_iff₀ hrate]
    exact mul_le_mul_of_nonneg_left hr.least (Nat.cast_nonneg len)
  have howed : 0 ≤ v.owed cfg ∧ (start - 2 ^ 61) * cfg.slowest ≤ v.owed cfg := by
    unfold owed
    cases hn : v.pacer.next with
    | none =>
      obtain hs | ⟨d, hd, -⟩ := hs
      · exact ⟨le_rfl, mul_nonpos_of_nonpos_of_nonneg (by linarith [now.early]) hpos.le⟩
      · rw [hn] at hd
        cases hd
    | some d =>
      refine ⟨mul_nonneg (le_max_left _ _) hpos.le, mul_le_mul_of_nonneg_right ?_ hpos.le⟩
      obtain hs | ⟨d', hd, hle⟩ := hs
      · exact le_max_of_le_left (by linarith [now.early])
      · rw [hn] at hd
        cases hd
        exact le_max_of_le_right (by linarith)
  rw [max_mul_of_nonneg _ _ hpos.le, zero_mul]
  refine max_le (add_nonneg howed.1 (Nat.cast_nonneg len)) ?_
  calc (start + len / v.pacer.bytesPerSec - 2 ^ 61) * cfg.slowest
      = (start - 2 ^ 61) * cfg.slowest + len / v.pacer.bytesPerSec * cfg.slowest := by ring
    _ ≤ v.owed cfg + len := add_le_add howed.2 hlen

/-- The batch is at most its segments, and what the deadline owes and the batch are bytes
sent. -/
structure PaceInv (cfg : SendCfg) (s : SendState rq) : Prop extends RoomInv cfg s where
  length : s.v.batch.length ≤ s.v.batchSegs * cfg.seg
  sent : 0 < cfg.slowest → s.v.owed cfg + s.v.batch.length ≤ s.v.bytesSent.toNat

theorem paceInv_init (cfg : SendCfg) : PaceInv cfg (SendState.init rq cfg) where
  toRoomInv := roomInv_init cfg
  length := Nat.zero_le _
  sent _ := by
    have hnext : (SendState.init rq cfg).v.pacer.next = none := by
      cases hr : cfg.rateMbps <;> simp [SendState.init, Spray.new, hr, Pacer.newMbps, Pacer.newBps]
    rw [Spray.owed, hnext]
    exact le_of_eq (zero_add 0)

theorem TxPlane.length_le_seg {plane : TxPlane} (hw : plane.wireLen = cfg.plane.wireLen)
    {d : Octets} {p : EncodingPacket}
    (hd : d.length = plane.wireLen (p.payloadId ++ p.data).length)
    (hp : p.data.length ≤ cfg.layout.symbolSize.toNat) : d.length ≤ cfg.seg := by
  rw [hd, hw, p.length_payload, SendCfg.seg]
  cases cfg.plane <;> simp only [wireLen] <;> omega

theorem BatchStep.paceInv {s s' : SendState rq} (hsize : InPlace enc Sealed.tagLen)
    (h : BatchStep enc cfg s s') (hr : RateInv cfg s.v)
    (hdata : ∀ b p ps, s.pc.packetsOf = some (b, p :: ps) →
      p.data.length ≤ cfg.layout.symbolSize.toNat)
    (hi : s.pc.alive = true → PaceInv cfg s) (ha' : s'.pc.alive = true) : PaceInv cfg s' := by
  refine ⟨h.room hsize (fun ha => (hi ha).toRoomInv) ha', ?_, fun hpos => ?_⟩
  · cases h with
    | dead h =>
      rw [ha'] at h
      cases h
    | same hb hn _ ha => rw [hb, hn]; exact (hi ha).length
    | flushed hb hn => rw [hb, hn]; exact Nat.zero_le _
    | queued hp ha _ hok _ hb hn =>
      obtain ⟨d, hout, hd⟩ := (TxPlane.encodeInto_appends hsize _ _ _ _ _).2 hok
      have hle := TxPlane.length_le_seg (hi ha).wire hd (hdata _ _ _ hp)
      have hlen := (hi ha).length
      rw [hb, hout, hn, List.length_append, Nat.add_mul, Nat.one_mul]
      omega
  · cases h with
    | dead h =>
      rw [ha'] at h
      cases h
    | same hb _ _ ha _ hd hs =>
      rw [hb, hs, Spray.owed, hd]
      exact (hi ha).sent hpos
    | queued hp ha _ hok _ hb hn _ hd hs =>
      obtain ⟨d, hout, hlen⟩ := (TxPlane.encodeInto_appends hsize _ _ _ _ _).2 hok
      have hle : (d.length : ℚ) ≤ cfg.seg := by
        exact_mod_cast TxPlane.length_le_seg (hi ha).wire hlen (hdata _ _ _ hp)
      have hsent := (hi ha).sent hpos
      rw [hb, hout, Spray.owed, hd, Checked.addU64_eq_ok hs, cfg.toNat_seg, List.length_append]
      rw [Spray.owed] at hsent
      push_cast
      linarith
    | flushed hb hn _ ha hd hs =>
      have hsent := (hi ha).sent hpos
      rw [hb, hs, List.length_nil, Nat.cast_zero, add_zero]
      obtain hd | ⟨now, sleep, hd⟩ := hd
      · rw [Spray.owed, hd]
        have : (0 : ℚ) ≤ s.v.batch.length := Nat.cast_nonneg _
        rw [Spray.owed] at hsent
        linarith
      · obtain ⟨start, hstart, -, hpace⟩ := s.v.pacer.pace_cases now.secs s.v.batch.length
          (hpos.trans_le hr.least)
        have hgrow := Spray.owed_start hr hpos hstart s.v.batch.length
        obtain ⟨p', sleep', hp', hnext⟩ | ⟨⟨e, he⟩, -⟩ := hpace
        · cases hd.symm.trans hp'
          rw [Spray.owed, hnext]
          exact hgrow.trans hsent
        · cases hd.symm.trans he

theorem pace_of_reachable (hsize : InPlace enc Sealed.tagLen) {s : SendState rq}
    (hs : Runs.Reachable (· = SendState.init rq cfg) (SendNext enc cfg) s)
    (ha : s.pc.alive = true) (ho : ¬ s.Oversize cfg) : PaceInv cfg s := by
  refine hs.invariant_of
    (Q := Runs.Reachable (· = SendState.init rq cfg) (SendNext enc cfg)) (fun s hs => hs)
    (fun s => s.pc.alive = true → ¬ s.Oversize cfg → PaceInv cfg s) ?_
    (fun s s' hreach _ hi hst => ?_) ha ho
  · rintro s rfl - -
    exact paceInv_init cfg
  · obtain ⟨a, e, hst⟩ := hst
    intro ha' ho'
    have ho : ¬ s.Oversize cfg := fun ho => ho' (hst.oversize ho)
    rcases hst.batch with h | ⟨hv, hpc⟩
    · refine h.paceInv hsize (rate_of_reachable hreach) (fun b p ps hp => ?_) (hi · ho) ha'
      by_contra hlt
      exact ho ⟨_, mem_made_of_packetsOf hreach hp List.mem_cons_self, not_le.mp hlt⟩
    · have hi := hi (hpc ▸ ha') ho
      exact ⟨hi.toRoomInv.same hv hpc, by rw [hv]; exact hi.length, by rw [hv]; exact hi.sent⟩

/-! ## Panics -/

/-- What the codec makes of block `b` is not one source block. -/
def SendCfg.Unencodable (rq : Raptorq) (cfg : SendCfg) (b : UInt32) : Prop :=
  ¬ ∃ enc be, rq.encoderWithDefaults (slice cfg.data (cfg.layout.start b) (cfg.layout.stop b))
      cfg.layout.symbolSize = .ok enc ∧ rq.blockEncoders enc = [be]

/-- Block `b` has so many symbols, or there were so many rounds, that the ids of `b` do
not suffice. -/
def SendState.OutOfIds (cfg : SendCfg) (s : SendState rq) (b : UInt32) : Prop :=
  ∃ e be bes k, buildEncoder cfg.layout cfg.data b = .ok e ∧ rq.blockEncoders e = be :: bes ∧
    cfg.layout.sourceSymbols b = .ok k ∧
    2 ^ 24 < (rq.sourcePackets be).length + mostRepair k * (s.v.round.toNat + 1)

/-- What makes the sender panic. -/
inductive SendPanic (cfg : SendCfg) (s : SendState rq) (frames : List Frame) : Prop
  | clock (hmode : cfg.rateMbps = none) (h : EndOfClock frames)
  | encoder {b : UInt32} (hb : b < cfg.layout.numBlocks) (h : cfg.Unencodable rq b)
  | ids {b : UInt32} (hb : b < cfg.layout.numBlocks) (h : s.OutOfIds cfg b)
  /-- The bytes of all the symbols that can be numbered. -/
  | bytes (h : 2 ^ 64 ≤ cfg.layout.numBlocks.toNat * 2 ^ 24 * cfg.seg)
  | segment (h : maxGsoBytes < cfg.seg)
  | symbol (h : s.Oversize cfg)
  /-- At a fixed rate those bytes take 2^61 s. -/
  | slow {mbps : ℚ} (hmode : cfg.rateMbps = some mbps) (hpos : 0 < mbps)
      (h : 2 ^ 61 * (mbps * 1000000 / 8) ≤ (cfg.layout.numBlocks.toNat * 2 ^ 24 * cfg.seg : Nat))

theorem SendPanic.mono {s s' : SendState rq} {frames frames' : List Frame}
    (h : SendPanic cfg s frames) (hv : s'.v = s.v) (ht : s.Oversize cfg → s'.Oversize cfg)
    (hsub : frames ⊆ frames') : SendPanic cfg s' frames' := by
  cases h with
  | clock hmode h =>
    obtain ⟨pkts, span, tMs, hf, hend⟩ := h
    exact .clock hmode ⟨pkts, span, tMs, hsub hf, hend⟩
  | encoder hb h => exact .encoder hb h
  | ids hb h => exact .ids hb (by rwa [SendState.OutOfIds, hv])
  | bytes h => exact .bytes h
  | segment h => exact .segment h
  | symbol h => exact .symbol (ht h)
  | slow hmode hpos h => exact .slow hmode hpos h

/-- Where a panic comes from. -/
theorem SendStep.panics {s s' : SendState rq} {a : Act Frame} {e : Option Sealed}
    (h : SendStep enc cfg s a e s') (hp : s'.pc = .panicked) : s'.v = s.v ∧
    (s.pc = .panicked ∨ (∃ m ∈ s.chan, ∃ p, s.v.onFeedback m = .error p) ∨
      (∃ b todo p, s.pc = .blocks (b :: todo) ∧ s.v.acked[b.toNat]? ≠ some true ∧
        s.v.startTurn cfg b = .error p) ∨
      (∃ b pkt pkts todo p, s.pc = .packets b (pkt :: pkts) todo ∧
        s.v.sendPacket enc cfg b pkt = .error p) ∨
      (∃ p, Checked.addU32 s.v.round 1 = .error p) ∨
      s.pc.flushes = true ∧ ∃ (now : Instant) (gone : Bool) (p : Panic),
        s.v.flushed cfg now.secs gone = .error p) := by
  cases h with
  | readerRead | readerFail | readerReturn => exact ⟨rfl, .inl hp⟩
  | drainPanic _ hm hv =>
    exact ⟨rfl, .inr (.inl ⟨_, by rw [hm]; exact List.mem_cons_self, _, hv⟩)⟩
  | turnPanic h ha hv => exact ⟨rfl, .inr (.inr (.inl ⟨_, _, _, h, ha, hv⟩))⟩
  | packetPanic h hv => exact ⟨rfl, .inr (.inr (.inr (.inl ⟨_, _, _, _, _, h, hv⟩)))⟩
  | roundPanic _ hr => exact ⟨rfl, .inr (.inr (.inr (.inr (.inl ⟨_, hr⟩))))⟩
  | flushPanic h now gone hv => exact ⟨rfl, .inr (.inr (.inr (.inr (.inr ⟨h, now, gone, _, hv⟩))))⟩
  | drainGo h => rw [show s.pc = _ from hp] at h; cases h
  | @drainEmpty k =>
    rcases SendState.resume_cases cfg s.v k with hk | ⟨_, -, hk⟩ | hk | hk <;> rw [hk] at hp <;>
      cases hp
  | queued => simp only at hp; split at hp <;> cases hp
  | @packetsEnd _ todo =>
    rcases SendState.endTurn_cases s.v todo with hk | ⟨-, hk⟩ | hk <;> rw [hk] at hp <;> cases hp
  | flush _ _ gone | flushTail _ _ gone => cases gone <;> cases hp
  | @hello ok | @manifest _ ok => cases ok <;> cases hp
  | _ => cases hp

/-- A turn that panics found no encoder, or no ids. -/
theorem turn_panic {s : SendState rq} {b : UInt32} {todo : List UInt32} {p : Panic}
    (hrq : rq.Ranged) (hs : Runs.Reachable (· = SendState.init rq cfg) (SendNext enc cfg) s)
    (hb : b < cfg.layout.numBlocks) (hpc : s.pc = .blocks (b :: todo))
    (ha : s.v.acked[b.toNat]? ≠ some true) (h : s.v.startTurn cfg b = .error p) :
    cfg.Unencodable rq b ∨ s.OutOfIds cfg b := by
  obtain ⟨ht, hi, -⟩ := repair_of_reachable hs
  by_cases henc : cfg.Unencodable rq b
  · exact .inl henc
  obtain ⟨e, he⟩ := (buildEncoder_ok_iff cfg.fits hb).mpr (not_not.mp henc)
  obtain ⟨be, bes, hbe⟩ : ∃ be bes, rq.blockEncoders e = be :: bes := by
    obtain ⟨e', be, he', hbe⟩ := not_not.mp henc
    rw [encoder_of_build cfg.fits hb he] at he'
    cases he'
    exact ⟨be, [], hbe⟩
  obtain ⟨k, hk⟩ : ∃ k, cfg.layout.sourceSymbols b = .ok k := by
    rw [Layout.sourceSymbols, Layout.blockLen_of_lt hb]
    exact ⟨_, rfl⟩
  obtain ⟨next, hnext, -⟩ := hi.numbers hb
  obtain ⟨n, hn, -⟩ := s.v.repairCount_sized cfg k
  have hasks : s.Asks cfg b be k next n :=
    ⟨⟨todo, hpc⟩, ha, ⟨e, bes, he, hbe⟩, hk, hnext, hn⟩
  refine .inr ⟨e, be, bes, k, he, hbe, hk, ?_⟩
  have hle := hasks.next_le ht hi
  by_contra hfew
  obtain ⟨pkts, v', hok⟩ := hasks.startTurn_of_range (cached_of_reachable hs) hrq (by omega)
  cases h.symm.trans hok

theorem Spray.sendPacket_panic {v : Spray rq} {b : UInt32} {pkt : EncodingPacket} {p : Panic}
    (h : v.sendPacket enc cfg b pkt = .error p) :
    2 ^ 64 ≤ v.packetsSent.toNat + 1 ∨ 2 ^ 64 ≤ v.bytesSent.toNat + cfg.seg := by
  by_contra hsmall
  obtain ⟨hp, hb⟩ := not_or.mp hsmall
  have hp : Checked.addU64 v.packetsSent 1 = .ok (v.packetsSent + 1) :=
    Checked.addU64_of_lt (not_le.mp hp)
  have hb : Checked.addU64 v.bytesSent (UInt64.ofNat cfg.seg) =
      .ok (v.bytesSent + UInt64.ofNat cfg.seg) :=
    Checked.addU64_of_lt (by rw [cfg.toNat_seg]; exact not_le.mp hb)
  simp only [sendPacket, hp, Checked.ok_bind] at h
  split at h
  · cases h
  · simp only [encodePacket, hb, Checked.ok_bind] at h
    split at h <;> cases h

theorem packet_panic {s : SendState rq} {b : UInt32} {pkt : EncodingPacket}
    {pkts : List EncodingPacket} {todo : List UInt32} {p : Panic} (hi : CountInv cfg s)
    (hmade : s.made.length ≤ cfg.layout.numBlocks.toNat * 2 ^ 24)
    (hpc : s.pc = .packets b (pkt :: pkts) todo) (h : s.v.sendPacket enc cfg b pkt = .error p) :
    2 ^ 64 ≤ cfg.layout.numBlocks.toNat * 2 ^ 24 * cfg.seg := by
  have hblocks := cfg.layout.numBlocks.toNat_lt
  -- This packet is not counted yet.
  have hcount : s.v.packetsSent.toNat + 1 ≤ cfg.layout.numBlocks.toNat * 2 ^ 24 := by
    have hp := hi.packets
    simp only [hpc, SendPc.rest, List.map_cons, List.length_cons] at hp
    omega
  rcases Spray.sendPacket_panic h with hp | hb
  · omega
  · calc 2 ^ 64 ≤ s.v.bytesSent.toNat + cfg.seg := hb
      _ ≤ (s.v.packetsSent.toNat + 1) * cfg.seg := by
        rw [Nat.add_mul, Nat.one_mul]
        exact Nat.add_le_add_right hi.bytes _
      _ ≤ cfg.layout.numBlocks.toNat * 2 ^ 24 * cfg.seg := Nat.mul_le_mul_right _ hcount

theorem Spray.flushed_panic {v : Spray rq} {now : ℚ} {gone : Bool} {p : Panic}
    (h : v.flushed cfg now gone = .error p) : maxGsoBytes < v.batch.length ∨
      0 < v.pacer.bytesPerSec ∧ ∃ e, v.pacer.pace now v.batch.length = .error e := by
  simp only [flushed] at h
  split at h
  · cases h
  split at h
  · split at h
    · cases h
    · by_cases hpos : v.pacer.bytesPerSec ≤ 0
      · rw [Pacer.pace, if_pos hpos] at h
        cases h
      · cases hpace : v.pacer.pace now v.batch.length with
        | ok r =>
          rw [hpace] at h
          cases h
        | error e => exact .inr ⟨not_le.mp hpos, e, rfl⟩
  · next hassert =>
    have hseg : 0 < cfg.seg := cfg.plane.wireLen_pos _
    exact .inl (not_le.mp fun hle => hassert ⟨hseg, hle⟩)

/-- A batch that panics is of datagrams too long, or paced past the end of the clock. -/
theorem flush_panic {s : SendState rq} {now : Instant} {gone : Bool} {p : Panic}
    {frames : List Frame} (hsize : InPlace enc Sealed.tagLen)
    (hs : Runs.Reachable (· = SendState.init rq cfg) (SendNext enc cfg) s)
    (hmade : s.made.length ≤ cfg.layout.numBlocks.toNat * 2 ^ 24) (hpc : s.pc.flushes = true)
    (h : s.v.flushed cfg now.secs gone = .error p) : SendPanic cfg s frames := by
  by_cases ho : s.Oversize cfg
  · exact .symbol ho
  have ha : s.pc.alive = true := by
    cases hpc' : s.pc with
    | flush | flushTail => rfl
    | _ =>
      rw [hpc'] at hpc
      cases hpc
  have hi := pace_of_reachable hsize hs ha ho
  rcases Spray.flushed_panic h with hlen | ⟨hpos, e, he⟩
  · refine .segment (not_le.mp fun hle => ?_)
    exact absurd (hi.length.trans (SendCfg.full_le hle hi.segs)) (not_le.mpr hlen)
  have hr := rate_of_reachable hs
  obtain ⟨start, hstart, hearly, ⟨p', sleep, hok, -⟩ | ⟨-, hlate⟩⟩ :=
    s.v.pacer.pace_cases now.secs s.v.batch.length hpos
  · cases he.symm.trans hok
  have hslow : 0 < cfg.slowest := by
    by_cases hmode : cfg.rateMbps = none
    · rw [SendCfg.slowest, hmode]
      norm_num [Rate.minRateBps]
    · rw [← (hr.fixed hmode).2]
      exact hpos
  -- The bytes sent take 2^61 s at the slowest rate.
  have hsent : 2 ^ 61 * cfg.slowest ≤ s.v.bytesSent.toNat := by
    refine le_trans ?_ ((Spray.owed_start hr hslow hstart s.v.batch.length).trans (hi.sent hslow))
    refine mul_le_mul_of_nonneg_right (le_max_of_le_right ?_) hslow.le
    rcases hlate with hlate | hlate
    · have hburst : Rate.maxBurst ≤ 1 := by norm_num [Rate.maxBurst]
      linarith [now.nonneg]
    · rw [Pacer.instantEnd] at hlate
      linarith
  have hcount := count_of_reachable hs
  cases hmode : cfg.rateMbps with
  | none =>
    rw [SendCfg.slowest, hmode] at hsent
    have hlt : (s.v.bytesSent.toNat : ℚ) < 2 ^ 64 := by exact_mod_cast s.v.bytesSent.toNat_lt
    have hmin : Option.elim none Rate.minRateBps (fun mbps : ℚ => mbps * 1000000 / 8) = 625000 := by
      norm_num [Rate.minRateBps]
    rw [hmin] at hsent
    linarith
  | some mbps =>
    have hrate : cfg.slowest = mbps * 1000000 / 8 := by rw [SendCfg.slowest, hmode]; rfl
    refine .slow hmode (by rw [hrate] at hslow; linarith) ?_
    rw [← hrate]
    refine hsent.trans ?_
    have hbytes := hcount.bytes
    have hpackets : s.v.packetsSent.toNat ≤ cfg.layout.numBlocks.toNat * 2 ^ 24 :=
      le_trans (Nat.le_of_add_right_le hcount.packets) hmade
    exact_mod_cast hbytes.trans (Nat.mul_le_mul_right _ hpackets)

theorem SendStep.sendPanic {s s' : SendState rq} {a : Act Frame} {e : Option Sealed}
    {frames : List Frame} (hrq : rq.Ranged) (hsize : InPlace enc Sealed.tagLen)
    (hs : Runs.Reachable (· = SendState.init rq cfg) (SendNext enc cfg) s)
    (hh : HeardInv cfg s frames) (hold : s.pc = .panicked → SendPanic cfg s frames)
    (h : SendStep enc cfg s a e s') (hp : s'.pc = .panicked) :
    SendPanic cfg s' (frames ++ a.got) := by
  have hi := streak_of_reachable hs
  have hn := (repair_of_reachable hs).2.1
  obtain ⟨hv, hcause⟩ := h.panics hp
  suffices hcause : SendPanic cfg s frames from
    hcause.mono hv h.oversize (List.subset_append_left frames a.got)
  rcases hcause with hpc | ⟨m, hm, p, hm'⟩ | ⟨b, todo, p, hpc, ha, ht⟩ |
    ⟨b, pkt, pkts, todo, p, hpc, hpkt⟩ | ⟨p, hr⟩ | ⟨hpc, now, gone, p, hflush⟩
  · exact hold hpc
  · obtain ⟨ms, hms⟩ := drains_of_reachable hs
    obtain ⟨hsome, hend⟩ := Spray.onFeedback_panic hms.inv hh.ctrl (hh.chan m hm) hm'
    exact .clock (hh.mode hsome) hend
  · have hb := hi.todo _ (by rw [hpc]; rfl) b List.mem_cons_self
    rcases turn_panic hrq hs hb hpc ha ht with henc | hids
    · exact .encoder hb henc
    · exact .ids hb hids
  · exact .bytes (packet_panic (count_of_reachable hs) (hi.made_le hn hrq.toNumbered) hpc hpkt)
  · -- The round number is far from its end.
    have hround := hi.round_le hn hrq.toNumbered
    have hone : (1 : UInt32).toNat = 1 := rfl
    have hok : Checked.addU32 s.v.round 1 = .ok (s.v.round + 1) := if_pos (by omega)
    cases hr.symm.trans hok
  · exact flush_panic hsize hs (hi.made_le hn hrq.toNumbered) hpc hflush

theorem SendReads.inv {s : SendState rq} {frames : List Frame} (hrq : rq.Ranged)
    (hsize : InPlace enc Sealed.tagLen) (h : SendReads enc cfg s frames) :
    HeardInv cfg s frames ∧ (s.pc = .panicked → SendPanic cfg s frames) := by
  induction h with
  | start h =>
    subst h
    exact ⟨heardInv_init cfg, fun hp => by cases hp⟩
  | next h hst ih =>
    obtain ⟨hh, hold⟩ := ih
    obtain ⟨e, hstep⟩ := hst
    exact ⟨hstep.heardInv hh, hstep.sendPanic hrq hsize (SendReads.reachable h) hh hold⟩

end AtpExperiment
