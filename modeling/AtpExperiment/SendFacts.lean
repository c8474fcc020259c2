/-
What one step of the sender does to the locals of its spray loop
(`SendStep.spray`), function by function, and the pacing result.

`paced_iff`: in adaptive mode the pacer follows the controller, and stays at
or below the cap, for every run exactly when the cap is at least the starting
rate of 100 Mbit/s: the pacer starts there whatever the cap is.
-/
import AtpExperiment.Lib.Runs
import AtpExperiment.RateFacts
import AtpExperiment.Send

namespace AtpExperiment

open Octets Aead Duplex

variable {rq : Raptorq} {enc : Encrypt} {cfg : SendCfg}

/-! ## The locals -/

/-- What a step can do to the locals, with the messages in the channel. -/
inductive SprayStep (enc : Encrypt) (cfg : SendCfg) (chan : List Feedback) :
    Spray rq → Option Sealed → Spray rq → Prop
  | same {v : Spray rq} : SprayStep enc cfg chan v none v
  | feedback {v v' : Spray rq} {m : Feedback} (hm : m ∈ chan) (h : v.onFeedback m = .ok (.go v')) :
    SprayStep enc cfg chan v none v'
  | startTurn {v v' : Spray rq} {b : UInt32} {pkts : List EncodingPacket}
      (h : v.startTurn cfg b = .ok (pkts, v')) : SprayStep enc cfg chan v none v'
  | dropped {v v' : Spray rq} {b : UInt32} {p : EncodingPacket}
      (h : v.sendPacket enc cfg b p = .ok (.dropped v')) : SprayStep enc cfg chan v none v'
  | queued {v v' : Spray rq} {b : UInt32} {p : EncodingPacket} {e : Option Sealed}
      (h : v.sendPacket enc cfg b p = .ok (.queued v' e)) : SprayStep enc cfg chan v e v'
  | failed {v v' : Spray rq} {b : UInt32} {p : EncodingPacket}
      (h : v.sendPacket enc cfg b p = .ok (.failed v')) : SprayStep enc cfg chan v none v'
  | flushed {v v' : Spray rq} {now : ℚ} {gone : Bool} (hg : gone = true → v.batch ≠ [])
      (h : v.flushed cfg now gone = .ok v') : SprayStep enc cfg chan v none v'
  | round {v : Spray rq} (round : UInt32) : SprayStep enc cfg chan v none { v with round }

theorem SendStep.spray {s s' : SendState rq} {a : Act Frame} {e : Option Sealed}
    (h : SendStep enc cfg s a e s') : SprayStep enc cfg s.chan s.v e s'.v := by
  cases h with
  | drainGo _ hc hv => exact .feedback (by rw [hc]; exact List.mem_cons_self) hv
  | turn _ _ hv => exact .startTurn hv
  | dropped _ hv => exact .dropped hv
  | queued _ hv => exact .queued hv
  | encodeFail _ hv => exact .failed hv
  | flush _ _ _ hg hv | flushTail _ _ _ hg hv => exact .flushed hg hv
  | roundEnd => exact .round _
  | _ => exact .same

/-! ## Where the loop goes on -/

/-- With an empty channel: to the selection, the next block, the top or another
settle pause. -/
theorem SendState.resume_cases (cfg : SendCfg) (v : Spray rq) (k : Resume) :
    resume cfg v k = .select ∨ (∃ todo, k = .turn todo ∧ resume cfg v k = .blocks todo) ∨
      resume cfg v k = .drain .top ∨ resume cfg v k = .settle := by
  cases k with
  | top => exact .inl rfl
  | turn todo => exact .inr (.inl ⟨todo, rfl, rfl⟩)
  | settle before =>
    simp only [resume]
    split
    · exact .inr (.inr (.inl rfl))
    · exact .inr (.inr (.inr rfl))

/-- After a turn: to the batch's tail, the round's end when the receiver is gone,
or feedback. -/
theorem SendState.endTurn_cases (v : Spray rq) (todo : List UInt32) :
    endTurn v todo = .flushTail todo ∨ (v.receiverGone = true ∧ endTurn v todo = .roundEnd) ∨
      endTurn v todo = .drain (.turn todo) := by
  simp only [endTurn]
  split
  · exact .inl rfl
  split
  · next hgone => exact .inr (.inl ⟨hgone, rfl⟩)
  · exact .inr (.inr rfl)

/-! ## The functions of the loop -/

/-- A call of `get_encoder`: a hit moves its entry to the front, a miss puts a new
one there and drops what is over, and a panic is that of building. -/
theorem getEncoder_cases {cache : List (UInt32 × rq.Encoder)} {cap : Nat} (hcap : 0 < cap)
    (b : UInt32) (l : Layout) (data : Octets) :
    (∃ x, cache.find? (·.1 == b) = some x ∧
      getEncoder cache cap b l data = .ok (x.2, x :: cache.eraseP (·.1 == b))) ∨
    (∃ e, cache.find? (·.1 == b) = none ∧ buildEncoder l data b = .ok e ∧
      getEncoder cache cap b l data = .ok (e, ((b, e) :: cache).take cap)) ∨
    ∃ p, (buildEncoder l data b : Checked rq.Encoder) = .error p ∧
      getEncoder cache cap b l data = .error p := by
  cases hfind : cache.find? (·.1 == b) with
  | some x =>
    refine .inl ⟨x, rfl, ?_⟩
    simp only [getEncoder, hfind]
    rfl
  | none =>
    cases hb : (buildEncoder l data b : Checked rq.Encoder) with
    | error p =>
      refine .inr (.inr ⟨p, rfl, ?_⟩)
      simp only [getEncoder, hfind, hb]
      rfl
    | ok e =>
      obtain ⟨n, rfl⟩ : ∃ n, cap = n + 1 := ⟨cap - 1, by omega⟩
      refine .inr (.inl ⟨e, rfl, rfl, ?_⟩)
      simp only [getEncoder, hfind, hb, Checked.ok_bind, List.take_succ_cons]
      rfl

namespace Spray

theorem startTurn_eq_ok {v v' : Spray rq} {b : UInt32} {pkts : List EncodingPacket}
    (h : v.startTurn cfg b = .ok (pkts, v')) :
    ∃ k e be bes encoders next n repair next', cfg.layout.sourceSymbols b = .ok k ∧
      getEncoder v.encoders encoderCache b cfg.layout cfg.data = .ok (e, encoders) ∧
      rq.blockEncoders e = be :: bes ∧ v.nextRepair[b.toNat]? = some next ∧
      v.repairCount cfg k = .ok n ∧ rq.repairPackets be next.toNat n.toNat = .ok repair ∧
      Checked.addU32 next n = .ok next' ∧
      pkts = (if v.round = 0 then rq.sourcePackets be else []) ++ repair ∧
      v' = { v with encoders, nextRepair := v.nextRepair.set b.toNat next' } := by
  simp only [startTurn, Checked.bind_eq_ok] at h
  obtain ⟨k, hk, ⟨e, encoders⟩, he, h⟩ := h
  split at h
  · next be bes next hbe hnext =>
    simp only [Checked.bind_eq_ok, Checked.pure_eq_ok, Prod.mk.injEq] at h
    obtain ⟨n, hn, repair, hrep, next', hadd, hpkts, hv⟩ := h
    exact ⟨k, e, be, bes, encoders, next, n, repair, next', hk, he, hbe, hnext, hn, hrep, hadd,
      hpkts.symm, hv.symm⟩
  · cases h

/-- The packets of a turn are symbols of the encoder it gets. -/
theorem startTurn_spec {v v' : Spray rq} {b : UInt32} {pkts : List EncodingPacket}
    (h : v.startTurn cfg b = .ok (pkts, v')) :
    ∃ e be bes encoders next, getEncoder v.encoders encoderCache b cfg.layout cfg.data =
        .ok (e, encoders) ∧ rq.blockEncoders e = be :: bes ∧
      (∀ p ∈ pkts, p ∈ rq.sourcePackets be ∨
        ∃ start n ps, rq.repairPackets be start n = .ok ps ∧ p ∈ ps) ∧
      v' = { v with encoders, nextRepair := v.nextRepair.set b.toNat next } := by
  obtain ⟨k, e, be, bes, encoders, next, n, repair, next', -, he, hbe, -, -, hrep, -, rfl, rfl⟩ :=
    startTurn_eq_ok h
  refine ⟨e, be, bes, encoders, next', he, hbe, fun p hp => ?_, rfl⟩
  rcases List.mem_append.mp hp with hp | hp
  · split at hp
    · exact .inl hp
    · cases hp
  · exact .inr ⟨_, _, repair, hrep, hp⟩

/-- A turn changes the cache and the next repair ids only. -/
theorem startTurn_frame {v v' : Spray rq} {b : UInt32} {pkts : List EncodingPacket}
    (h : v.startTurn cfg b = .ok (pkts, v')) :
    ∃ encoders nextRepair, v' = { v with encoders, nextRepair } := by
  obtain ⟨_, _, _, encoders, next, -, -, -, hv⟩ := startTurn_spec h
  exact ⟨encoders, _, hv⟩

theorem encodePacket_cases {v : Spray rq} {b : UInt32} {p : EncodingPacket} {out : Sent rq}
    (h : v.encodePacket enc cfg b p = .ok out) :
    let r := v.plane.encodeInto enc cfg.transferTag b (p.payloadId ++ p.data) v.batch
    (r.ok = true ∧ ∃ bytes, out = .queued { v with
        plane := r.plane, batch := r.out, bytesSent := bytes, batchSegs := v.batchSegs + 1 }
        r.sealed) ∨
      r.ok = false ∧ out = .failed { v with plane := r.plane, batch := r.out } := by
  simp only [encodePacket] at h
  split at h
  · next hok =>
    simp only [Checked.bind_eq_ok, Checked.pure_eq_ok] at h
    obtain ⟨bytes, -, rfl⟩ := h
    exact .inl ⟨hok, bytes, rfl⟩
  · next hok =>
    cases h
    exact .inr ⟨by simpa using hok, rfl⟩

theorem sendPacket_cases {v : Spray rq} {b : UInt32} {p : EncodingPacket} {out : Sent rq}
    (h : v.sendPacket enc cfg b p = .ok out) :
    ∃ n rng, Checked.addU64 v.packetsSent 1 = .ok n ∧
      let v := { v with packetsSent := n, dropRng := rng }
      (out = .dropped { v with plane := v.plane.burnSeq } ∨
        v.encodePacket enc cfg b p = .ok out) := by
  simp only [sendPacket, Checked.bind_eq_ok] at h
  obtain ⟨n, hn, h⟩ := h
  refine ⟨n, if 0 < cfg.testDrop then (xorshiftUnit v.dropRng).2 else v.dropRng, hn, ?_⟩
  split at h
  · cases h
    exact .inl rfl
  · exact .inr h

/-- The locals after a packet, whatever became of it. -/
def Sent.locals : Sent rq → Spray rq
  | .dropped v | .queued v _ | .failed v => v

/-- A packet leaves everything but the plane, the batch and its own counters. -/
theorem sendPacket_frame {v : Spray rq} {b : UInt32} {p : EncodingPacket} {out : Sent rq}
    (h : v.sendPacket enc cfg b p = .ok out) :
    ∃ plane batch segs n bytes rng, out.locals = { v with
      plane, batch, batchSegs := segs, packetsSent := n, bytesSent := bytes, dropRng := rng } := by
  obtain ⟨n, rng, -, rfl | he⟩ := sendPacket_cases h
  · exact ⟨_, _, _, _, _, _, rfl⟩
  · rcases encodePacket_cases he with ⟨-, bytes, rfl⟩ | ⟨-, rfl⟩
    · exact ⟨_, _, _, _, _, _, rfl⟩
    · exact ⟨_, _, _, _, _, _, rfl⟩

theorem sendPacket_queued {v v' : Spray rq} {b : UInt32} {p : EncodingPacket}
    {e : Option Sealed} (h : v.sendPacket enc cfg b p = .ok (.queued v' e)) :
    ∃ n rng bytes, Checked.addU64 v.packetsSent 1 = .ok n ∧
      Checked.addU64 v.bytesSent (UInt64.ofNat cfg.seg) = .ok bytes ∧
      let r := v.plane.encodeInto enc cfg.transferTag b (p.payloadId ++ p.data) v.batch
      r.ok = true ∧ v' = { v with
        packetsSent := n, dropRng := rng, plane := r.plane, batch := r.out, bytesSent := bytes
        batchSegs := v.batchSegs + 1 } := by
  obtain ⟨n, rng, hn, hout | he⟩ := sendPacket_cases h
  · cases hout
  · simp only [encodePacket] at he
    split at he
    · next hok =>
      simp only [Checked.bind_eq_ok] at he
      obtain ⟨bytes, hbytes, he⟩ := he
      cases he
      exact ⟨n, rng, bytes, hn, hbytes, hok, rfl⟩
    · cases he

/-- A message that is not a terminal one: an ack is recorded, a report moves
the loss estimate and, in adaptive mode, the controller and the pacer. -/
theorem onFeedback_go {v v' : Spray rq} {m : Feedback} (h : v.onFeedback m = .ok (.go v')) :
    v' = v ∨
    (∃ i n, m = .decoded i ∧ v.acked[i.toNat]? = some false ∧
      Checked.addU32 v.ackedCount 1 = .ok n ∧
      v' = { v with acked := v.acked.set i.toNat true, ackedCount := n }) ∨
    (∃ loss, v' = { v with loss }) ∨
    ∃ loss c r c', v.ctrl = some c ∧ RateController.Reported c r c' ∧
      v' = { v with
        loss, ctrl := some c'
        pacer := match r with | some bps => v.pacer.setRateBps bps | none => v.pacer } := by
  cases m with
  | done ok error => cases h
  | closed got => cases h
  | decoded i =>
    simp only [onFeedback] at h
    split at h
    · next ha =>
      simp only [Checked.bind_eq_ok, Checked.pure_eq_ok, Drained.go.injEq] at h
      obtain ⟨n, hn, rfl⟩ := h
      exact .inr (.inl ⟨i, n, rfl, ha, hn, rfl⟩)
    · cases h
      exact .inl rfl
  | progress pkts span tMs =>
    simp only [onFeedback] at h
    split at h
    · simp only [Checked.bind_eq_ok] at h
      obtain ⟨loss, -, h⟩ := h
      split at h
      · cases h
        exact .inr (.inr (.inl ⟨loss, rfl⟩))
      · next c hc =>
        simp only [Checked.bind_eq_ok, Checked.pure_eq_ok, Drained.go.injEq] at h
        obtain ⟨⟨r, c'⟩, hr, rfl⟩ := h
        exact .inr (.inr (.inr ⟨loss, c, r, c', hc, RateController.onReport_reported hr, rfl⟩))
    · cases h
      exact .inl rfl

/-- Feedback leaves everything but the acks, the loss estimate and the rates. -/
theorem onFeedback_frame {v v' : Spray rq} {m : Feedback} (h : v.onFeedback m = .ok (.go v')) :
    ∃ acked n loss ctrl pacer, v' = { v with acked, ackedCount := n, loss, ctrl, pacer } := by
  rcases onFeedback_go h with rfl | ⟨i, n, -, -, -, rfl⟩ | ⟨loss, rfl⟩ |
    ⟨loss, c, r, c', -, -, rfl⟩ <;> exact ⟨_, _, _, _, _, rfl⟩

theorem onFeedback_next {v v' : Spray rq} {m : Feedback} (h : v.onFeedback m = .ok (.go v')) :
    v'.pacer.next = v.pacer.next := by
  rcases onFeedback_go h with rfl | ⟨i, n, -, -, -, rfl⟩ | ⟨loss, rfl⟩ |
    ⟨loss, c, r, c', -, -, rfl⟩
  · rfl
  · rfl
  · rfl
  · cases r <;> rfl

theorem onFeedback_acked {v v' : Spray rq} {m : Feedback} (h : v.onFeedback m = .ok (.go v')) :
    v'.acked = v.acked ∨ ∃ i, m = .decoded i ∧ v'.acked = v.acked.set i.toNat true := by
  rcases onFeedback_go h with rfl | ⟨i, n, rfl, -, -, rfl⟩ | ⟨loss, rfl⟩ |
    ⟨loss, c, r, c', -, -, rfl⟩
  · exact .inl rfl
  · exact .inr ⟨i, rfl, rfl⟩
  · exact .inl rfl
  · exact .inl rfl

theorem pace_ok {p p' : Pacer} {now sleep : ℚ} {len : Nat} (h : p.pace now len = .ok (p', sleep)) :
    p'.bytesPerSec = p.bytesPerSec := by
  simp only [Pacer.pace] at h
  split at h
  · cases h
    rfl
  split at h
  · cases h
  split at h <;> cases h
  rfl

/-- A batch that was handed over leaves everything but the batch, the pacer's
deadline, and whether the receiver is there. -/
theorem flushed_eq_ok {v v' : Spray rq} {now : ℚ} {gone : Bool} (hg : gone = true → v.batch ≠ [])
    (h : v.flushed cfg now gone = .ok v') : ∃ pacer,
      (pacer = v.pacer ∨ ∃ sleep, v.pacer.pace now v.batch.length = .ok (pacer, sleep)) ∧
      v' = { v with batch := [], batchSegs := 0, receiverGone := gone, pacer } := by
  simp only [flushed] at h
  split at h
  · next hnil =>
    have hgone : gone = false := Bool.eq_false_iff.mpr fun ht => hg ht hnil
    cases h
    exact ⟨v.pacer, .inl rfl, by rw [← hnil, hgone]⟩
  split at h
  · split at h
    · next hgone =>
      cases h
      exact ⟨v.pacer, .inl rfl, rfl⟩
    · simp only [Checked.bind_eq_ok] at h
      obtain ⟨⟨pacer, sleep⟩, hp, h⟩ := h
      cases h
      exact ⟨pacer, .inr ⟨sleep, hp⟩, rfl⟩
  · cases h

theorem flushed_ok {v v' : Spray rq} {now : ℚ} {gone : Bool} (hg : gone = true → v.batch ≠ [])
    (h : v.flushed cfg now gone = .ok v') : ∃ pacer,
      pacer.bytesPerSec = v.pacer.bytesPerSec ∧
      v' = { v with batch := [], batchSegs := 0, receiverGone := gone, pacer } := by
  obtain ⟨pacer, hp, rfl⟩ := flushed_eq_ok hg h
  rcases hp with rfl | ⟨sleep, hp⟩
  · exact ⟨_, rfl, rfl⟩
  · exact ⟨pacer, pace_ok hp, rfl⟩

/-- At a rate of at least a byte per second, and away from the end of the clock,
`pace` returns. -/
theorem pace_returns {p : Pacer} {now t : ℚ} {len : Nat} (hrate : 1 ≤ p.bytesPerSec)
    (hnow : now ≤ t) (hnext : ∀ n ∈ p.next, n ≤ t) (ht : t + len < Pacer.instantEnd)
    (hlen : len < 2 ^ 64) : ∃ p' sleep, p.pace now len = .ok (p', sleep) ∧
      ∀ n ∈ p'.next, n ≤ t + len := by
  have hpos : ¬ p.bytesPerSec ≤ 0 := by linarith
  have hdur : (len : ℚ) / p.bytesPerSec ≤ len := div_le_self (Nat.cast_nonneg len) hrate
  have hsecs : ¬ (2 : ℚ) ^ 64 ≤ len / p.bytesPerSec := by
    have : (len : ℚ) < 2 ^ 64 := by exact_mod_cast hlen
    linarith
  have hstart : (p.next.elim now fun n => max n (now - Rate.maxBurst)) ≤ t := by
    have hburst : (0 : ℚ) ≤ Rate.maxBurst := by norm_num [Rate.maxBurst]
    cases hn : p.next with
    | none => exact hnow
    | some n => exact max_le (hnext n hn) (by linarith)
  have hend : ¬ Pacer.instantEnd ≤
      (p.next.elim now fun n => max n (now - Rate.maxBurst)) + len / p.bytesPerSec := by linarith
  refine ⟨_, _, by rw [Pacer.pace, if_neg hpos, if_neg hsecs, if_neg hend]; rfl, ?_⟩
  rintro n ⟨⟩
  linarith

theorem flushed_returns {v : Spray rq} {now t : ℚ} (hlen : v.batch.length ≤ maxGsoBytes)
    (hrate : 1 ≤ v.pacer.bytesPerSec) (hnow : now ≤ t) (hnext : ∀ n ∈ v.pacer.next, n ≤ t)
    (ht : t + maxGsoBytes < Pacer.instantEnd) : ∃ v', v.flushed cfg now false = .ok v' ∧
      ∀ n ∈ v'.pacer.next, n ≤ t + maxGsoBytes := by
  have hcast : (v.batch.length : ℚ) ≤ maxGsoBytes := by exact_mod_cast hlen
  have hsmall : v.batch.length < 2 ^ 64 := lt_of_le_of_lt hlen (by decide)
  obtain ⟨p', sleep, hp, hn⟩ := pace_returns hrate hnow hnext (by linarith) hsmall
  by_cases hnil : v.batch = []
  · refine ⟨_, if_pos hnil, fun n h => le_trans (hnext n h) ?_⟩
    exact le_add_of_nonneg_right (Nat.cast_nonneg _)
  · refine ⟨{ v with batch := [], batchSegs := 0, receiverGone := false, pacer := p' }, ?_,
      fun n h => le_trans (hn n h) (by linarith)⟩
    have hseg : 0 < cfg.seg := cfg.plane.wireLen_pos _
    rw [flushed, if_neg hnil, if_pos ⟨hseg, hlen⟩, hp]
    rfl

theorem flushed_first {v : Spray rq} (hp : v.pacer = .newBps Rate.startRateBps)
    (hlen : v.batch.length ≤ maxGsoBytes) : ∃ pacer, v.flushed cfg 0 false =
      .ok { v with batch := [], batchSegs := 0, receiverGone := false, pacer } := by
  have hrate : 1 ≤ v.pacer.bytesPerSec := by norm_num [hp, Pacer.newBps, Rate.startRateBps]
  have hnext : ∀ n ∈ v.pacer.next, n ≤ 0 := by simp [hp, Pacer.newBps]
  obtain ⟨v', hv, -⟩ : ∃ v', v.flushed cfg 0 false = .ok v' ∧ _ :=
    flushed_returns hlen hrate le_rfl hnext (by norm_num [maxGsoBytes, Pacer.instantEnd])
  obtain ⟨pacer, -, rfl⟩ := flushed_ok (Bool.noConfusion ·) hv
  exact ⟨pacer, hv⟩

end Spray

/-- Only feedback changes the acks and the rates. -/
theorem SprayStep.feedback_or {chan : List Feedback} {v v' : Spray rq} {e : Option Sealed}
    (h : SprayStep enc cfg chan v e v') :
    (∃ m ∈ chan, v.onFeedback m = .ok (.go v')) ∨
    (v'.acked = v.acked ∧ v'.ctrl = v.ctrl ∧ v'.pacer.bytesPerSec = v.pacer.bytesPerSec) := by
  cases h with
  | feedback hm h => exact .inl ⟨_, hm, h⟩
  | same | round => exact .inr ⟨rfl, rfl, rfl⟩
  | startTurn h =>
    obtain ⟨_, _, rfl⟩ := Spray.startTurn_frame h
    exact .inr ⟨rfl, rfl, rfl⟩
  | dropped h | queued h | failed h =>
    obtain ⟨_, _, _, _, _, _, rfl⟩ := Spray.sendPacket_frame h
    exact .inr ⟨rfl, rfl, rfl⟩
  | flushed hg h =>
    obtain ⟨pacer, hbps, rfl⟩ := Spray.flushed_ok hg h
    exact .inr ⟨rfl, rfl, hbps⟩

/-- Only a turn adds to the history, and only a turn touches the encoders and
the next repair ids. -/
theorem SendStep.turn_or {s s' : SendState rq} {a : Act Frame} {e : Option Sealed}
    (h : SendStep enc cfg s a e s') :
    (∃ b todo pkts, s.pc = .blocks (b :: todo) ∧ s.v.acked[b.toNat]? ≠ some true ∧
      s.v.startTurn cfg b = .ok (pkts, s'.v) ∧ s'.pc = .packets b pkts todo ∧
      s'.turns = s.turns ++ [⟨s.v.round, b, pkts⟩]) ∨
    s'.turns = s.turns ∧ s'.v.encoders = s.v.encoders ∧ s'.v.nextRepair = s.v.nextRepair := by
  cases h with
  | turn h ha hv => exact .inl ⟨_, _, _, h, ha, hv, rfl, rfl⟩
  | drainGo _ _ hv =>
    obtain ⟨_, _, _, _, _, rfl⟩ := Spray.onFeedback_frame hv
    exact .inr ⟨rfl, rfl, rfl⟩
  | dropped _ hv | queued _ hv | encodeFail _ hv =>
    obtain ⟨_, _, _, _, _, _, rfl⟩ := Spray.sendPacket_frame hv
    exact .inr ⟨rfl, rfl, rfl⟩
  | flush _ _ _ hg hv | flushTail _ _ _ hg hv =>
    obtain ⟨_, -, rfl⟩ := Spray.flushed_ok hg hv
    exact .inr ⟨rfl, rfl, rfl⟩
  | _ => exact .inr ⟨rfl, rfl, rfl⟩

/-! ## Pacing -/

/-- Only a report changes the rates, and then both. -/
theorem SprayStep.pacing {chan : List Feedback} {v v' : Spray rq} {e : Option Sealed}
    (h : SprayStep enc cfg chan v e v') :
    (v'.pacer.bytesPerSec = v.pacer.bytesPerSec ∧ v'.ctrl = v.ctrl) ∨
    ∃ c r c', v.ctrl = some c ∧ v'.ctrl = some c' ∧ RateController.Reported c r c' ∧
      v'.pacer.bytesPerSec = r.getD v.pacer.bytesPerSec := by
  rcases h.feedback_or with ⟨m, -, h⟩ | ⟨-, hctrl, hbps⟩
  · rcases Spray.onFeedback_go h with rfl | ⟨i, n, -, -, -, rfl⟩ | ⟨loss, rfl⟩ |
      ⟨loss, c, r, c', hc, hr, rfl⟩
    · exact .inl ⟨rfl, rfl⟩
    · exact .inl ⟨rfl, rfl⟩
    · exact .inl ⟨rfl, rfl⟩
    · exact .inr ⟨c, r, c', hc, rfl, hr, by cases r <;> rfl⟩
  · exact .inl ⟨hbps, hctrl⟩

/-- The pacer's rate is the controller's, and is between its bounds. -/
def Spray.Paced (cap : ℚ) (v : Spray rq) : Prop :=
  ∃ c, v.ctrl = some c ∧ v.pacer.bytesPerSec = c.rate ∧ c.max = cap ∧ c.Bounded

theorem SprayStep.paced {chan : List Feedback} {v v' : Spray rq} {e : Option Sealed} {cap : ℚ}
    (h : SprayStep enc cfg chan v e v') (hp : v.Paced cap) : v'.Paced cap := by
  obtain ⟨c, hc, hrate, hmax, hb⟩ := hp
  rcases h.pacing with ⟨hbps, hctrl⟩ | ⟨c₁, r, c', hc₁, hc', hr, hbps⟩
  · exact ⟨c, by rw [hctrl, hc], by rw [hbps, hrate], hmax, hb⟩
  · obtain rfl : c = c₁ := Option.some.inj (hc.symm.trans hc₁)
    refine ⟨c', hc', ?_, hr.max.trans hmax, hr.bounded hb⟩
    rw [hbps, hr.rate]
    split
    · rfl
    · next hsame => rw [Option.getD_none, hrate, not_not.mp hsame]

/-- One step of the sender, whatever the environment does. -/
def SendNext (enc : Encrypt) (cfg : SendCfg) (s s' : SendState rq) : Prop :=
  ∃ a e, SendStep enc cfg s a e s'

/-- Inside the spray loop: the pacer and the controller are built. -/
def SendPc.spraying : SendPc → Bool
  | .hello | .helloAck | .manifest _ | .manifestAck _ | .openPlane _ | .returned _
  | .panicked => false
  | _ => true

/-- The cap of `--max-rate-mbps`. -/
def SendCfg.cap (cfg : SendCfg) : ℚ := max (cfg.maxRateMbps * 1000000 / 8) Rate.minRateBps

theorem spraying_reachable (rq : Raptorq) (enc : Encrypt) (cfg : SendCfg) :
    Runs.Reachable (· = SendState.init rq cfg) (SendNext enc cfg)
      { SendState.init rq cfg with pc := .drain .top, reader := .running } := by
  let s := SendState.init rq cfg
  have h₀ : Runs.Reachable (· = SendState.init rq cfg) (SendNext enc cfg) s := .start rfl
  have h₁ := h₀.next ⟨.write cfg.hello true, _, .hello rfl⟩
  have h₂ := h₁.next ⟨.read (.helloAck (some 1)), _, .helloAck rfl⟩
  have h₃ := h₂.next ⟨.write cfg.manifest true, _, .manifest rfl⟩
  have h₄ := h₃.next ⟨_, _, .manifestAck rfl⟩
  cases hr : cfg.rendezvous with
  | push => exact h₄.next ⟨_, _, .openPush rfl hr⟩
  | pull port => exact h₄.next ⟨_, _, .openPull rfl hr⟩

/-- **When pacer and controller agree.** In adaptive mode, at every point of
every run inside the spray loop the pacer's rate is the controller's and at
most the cap, exactly when `--max-rate-mbps` is at least 100. -/
theorem paced_iff (rq : Raptorq) (enc : Encrypt) (cfg : SendCfg) (ha : cfg.rateMbps = none) :
    (∀ s : SendState rq, Runs.Reachable (· = SendState.init rq cfg) (SendNext enc cfg) s →
      s.pc.spraying = true → ∃ c, s.v.ctrl = some c ∧ s.v.pacer.bytesPerSec = c.rate ∧
        s.v.pacer.bytesPerSec ≤ max (cfg.maxRateMbps * 1000000 / 8) Rate.minRateBps) ↔
      100 ≤ cfg.maxRateMbps := by
  rw [← RateController.rate_new_eq_start_iff cfg.seg]
  constructor
  · intro h
    obtain ⟨c, hc, hrate, -⟩ := h _ (spraying_reachable rq enc cfg) rfl
    simp only [SendState.init, Spray.new, ha, Option.some.injEq] at hc hrate
    rw [hc, ← hrate]
    rfl
  · intro hstart s hs _
    have hp : s.v.Paced cfg.cap := by
      refine hs.invariant (fun s => s.v.Paced cfg.cap) ?_ ?_
      · intro s he
        subst he
        refine ⟨.new cfg.seg cfg.maxRateMbps, by simp [SendState.init, Spray.new, ha], ?_, rfl,
          RateController.bounded_new _ _⟩
        rw [hstart]
        simp [SendState.init, Spray.new, ha, Pacer.newBps]
      · intro s s' hp hx
        obtain ⟨a, e, hstep⟩ := hx
        exact hstep.spray.paced hp
    obtain ⟨c, hc, hrate, hmax, hb⟩ := hp
    exact ⟨c, hc, hrate, by rw [hrate]; exact hb.high.trans_eq hmax⟩

/-! ## A tiny file -/

theorem toNat_ceilU32_le (x : ℚ) : (ceilU32 x).toNat ≤ ⌈x⌉.toNat := by
  have hsize : UInt32.size = 2 ^ 32 := rfl
  rw [ceilU32, UInt32.toNat_ofNat_of_lt' (by omega)]
  exact Nat.min_le_left _ _

/-- With the default overhead the first turn of a small block has two repair
symbols. -/
theorem Spray.repairCount_first {v : Spray rq} {k : Nat} (hover : cfg.overhead = 5)
    (hloss : v.loss = .new) (hround : v.round = 0) (hk : k ≤ 20) :
    v.repairCount cfg k = .ok 2 := by
  have hfrac : LossEstimator.new.round0Frac (cfg.overhead / 100) = .ok (1 / 20) := by
    norm_num [LossEstimator.round0Frac, LossEstimator.new, clamp, hover]
  have hle : ⌈(k : ℚ) * (1 / 20)⌉ ≤ 1 := by
    have hk' : (k : ℚ) ≤ 20 := by exact_mod_cast hk
    exact Int.ceil_le.mpr (by push_cast; linarith)
  have hlt : ceilU32 ((k : ℚ) * (1 / 20)) < 2 := by
    rw [UInt32.lt_iff_toNat_lt]
    refine lt_of_le_of_lt (toNat_ceilU32_le _) ?_
    have : (2 : UInt32).toNat = 2 := rfl
    omega
  simp only [repairCount, hround, if_true, hloss, hfrac, Checked.ok_bind, if_pos hlt]
  rfl

/-- The bytes 1 to 128. -/
def tinyData : Octets := (List.range 128).map fun i => UInt8.ofNat (i + 1)

/-- A file of 128 bytes in one block of two symbols, pushed in adaptive mode. -/
def tinyCfg (plane : TxPlane) (sha256 : String) (maxRateMbps : ℚ) : SendCfg where
  plane
  rendezvous := .push
  rateMbps := none
  maxRateMbps
  overhead := 5
  testDrop := 0
  data := tinyData
  sha256
  layout := ⟨128, 128, 64, 1, by decide, by decide, by decide, by decide⟩
  transferTag := 7
  fileName := "f"
  fits := by simp [tinyData]

/-- With `--max-rate-mbps 200` the pacer never exceeds 200 Mbit/s. -/
theorem paced_at_200 :
    (tinyCfg .plain "" 200).rateMbps = none ∧ ∀ s : SendState .repetition,
      Runs.Reachable (· = SendState.init .repetition (tinyCfg .plain "" 200))
        (SendNext (fun _ _ _ => none) (tinyCfg .plain "" 200)) s → s.pc.spraying = true →
      ∃ c, s.v.ctrl = some c ∧ s.v.pacer.bytesPerSec = c.rate ∧
        s.v.pacer.bytesPerSec ≤ max ((200 : ℚ) * 1000000 / 8) Rate.minRateBps :=
  ⟨rfl, (paced_iff .repetition (fun _ _ _ => none) (tinyCfg .plain "" 200) rfl).mpr
    (by norm_num [tinyCfg])⟩

/-- With `--max-rate-mbps 50` the loop starts at 100 Mbit/s: the controller
is at its cap of 50, and the pacer at twice that. -/
theorem unpaced_at_50 :
    ∃ s : SendState .repetition,
      Runs.Reachable (· = SendState.init .repetition (tinyCfg .plain "" 50))
        (SendNext (fun _ _ _ => none) (tinyCfg .plain "" 50)) s ∧ s.pc.spraying = true ∧
      ∃ c, s.v.ctrl = some c ∧ c.rate = 6250000 ∧ s.v.pacer.bytesPerSec = 12500000 ∧
        ¬ s.v.pacer.bytesPerSec ≤ max ((50 : ℚ) * 1000000 / 8) Rate.minRateBps := by
  refine ⟨_, spraying_reachable _ _ _, rfl, .new _ 50, rfl, ?_, ?_, ?_⟩
  · norm_num [RateController.new, Rate.startRateBps, Rate.minRateBps]
  · norm_num [SendState.init, Spray.new, tinyCfg, Pacer.newBps, Rate.startRateBps]
  · norm_num [SendState.init, Spray.new, tinyCfg, Pacer.newBps, Rate.startRateBps, Rate.minRateBps]

end AtpExperiment
