/-
Acks under any feedback, and the end of the ack-settle loop.

Whatever the peer sends, in whatever portions `drain_feedback` finds it, the
blocks acked are those of the Decoded messages drained that are in range
(`AckInv`): a duplicate or an index out of range changes nothing, and
`acked_count` counts the acks. The settle loop goes on only after an iteration
that brought a new ack and left one missing, so it has no more iterations than
blocks are missing, or one; and a step inside it takes a message or moves on, so
it ends once no more messages arrive (`ack_bookkeeping`).
-/
import AtpExperiment.SendFeedback

namespace AtpExperiment

open Octets Aead Duplex

variable {rq : Raptorq} {enc : Encrypt} {cfg : SendCfg}

/-! ## Drained messages -/

/-- The message `drain_feedback` takes off the channel in a step, if any. -/
def SendState.drained (s s' : SendState rq) : List Feedback :=
  match s.pc with
  | .drain _ => if s'.chan.length < s.chan.length then s.chan.take 1 else []
  | _ => []

theorem SendState.drained_of_le {s s' : SendState rq} (h : s.chan.length ≤ s'.chan.length) :
    s.drained s' = [] := by
  simp only [drained, if_neg (not_lt.mpr h)]
  split <;> rfl

theorem SendState.drained_of_cons {s s' : SendState rq} {k : Resume} {m : Feedback}
    (h : s.pc = .drain k) (hm : s.chan = m :: s'.chan) : s.drained s' = [m] := by
  simp [drained, h, hm]

/-- A step drains a message, which changes the locals as `drain_feedback` does or
ends the transfer, or it drains none and leaves the acks. -/
theorem SendStep.drain_cases {s s' : SendState rq} {a : Act Frame} {e : Option Sealed}
    (h : SendStep enc cfg s a e s') :
    (∃ m, s.drained s' = [m] ∧ (s.v.onFeedback m = .ok (.go s'.v) ∨
      s'.v = s.v ∧ ∀ w, s.v.onFeedback m ≠ .ok (.go w))) ∨
    s.drained s' = [] ∧ s'.v.acked = s.v.acked ∧ s'.v.ackedCount = s.v.ackedCount := by
  cases h with
  | drainGo h hm hv => exact .inl ⟨_, s.drained_of_cons h hm, .inl hv⟩
  | drainDone h hm hv | drainErr h hm hv | drainPanic h hm hv =>
    refine .inl ⟨_, s.drained_of_cons h hm, .inr ⟨rfl, fun w hw => ?_⟩⟩
    cases hv.symm.trans hw
  | awaitDone h | awaitOther h => exact .inr ⟨by simp [SendState.drained, h], rfl, rfl⟩
  | readerRead | readerFail => exact .inr ⟨s.drained_of_le (by simp), rfl, rfl⟩
  | turn _ _ hv =>
    obtain ⟨_, _, rfl⟩ := Spray.startTurn_frame hv
    exact .inr ⟨s.drained_of_le le_rfl, rfl, rfl⟩
  | dropped _ hv | queued _ hv | encodeFail _ hv =>
    obtain ⟨_, _, _, _, _, _, rfl⟩ := Spray.sendPacket_frame hv
    exact .inr ⟨s.drained_of_le le_rfl, rfl, rfl⟩
  | flush _ _ _ hg hv | flushTail _ _ _ hg hv =>
    obtain ⟨_, -, rfl⟩ := Spray.flushed_ok hg hv
    exact .inr ⟨s.drained_of_le le_rfl, rfl, rfl⟩
  | _ => exact .inr ⟨s.drained_of_le le_rfl, rfl, rfl⟩

/-! ## Acks -/

/-- The acks after some messages were drained. -/
structure AckInv (cfg : SendCfg) (ms : List Feedback) (v : Spray rq) : Prop where
  size : v.acked.length = cfg.layout.numBlocks.toNat
  count : v.ackedCount.toNat = v.acked.count true
  acked : ∀ b : UInt32, v.acked[b.toNat]? = some true ↔
    b < cfg.layout.numBlocks ∧ .decoded b ∈ ms

theorem ackInv_new (cfg : SendCfg) : AckInv cfg [] (Spray.new rq cfg) where
  size := List.length_replicate
  count := by simp [Spray.new, List.count_replicate]
  acked b := by simp [Spray.new, List.getElem?_replicate]

theorem count_set_true {l : List Bool} {i : Nat} (h : l[i]? = some false) :
    (l.set i true).count true = l.count true + 1 := by
  obtain ⟨hi, hv⟩ := List.getElem?_eq_some_iff.mp h
  simp [List.count_set hi, hv]

namespace AckInv

variable {ms : List Feedback} {v v' : Spray rq}

theorem count_le (hi : AckInv cfg ms v) : v.ackedCount.toNat ≤ cfg.layout.numBlocks.toNat := by
  rw [hi.count, ← hi.size]
  exact List.count_le_length

theorem of_eq (hi : AckInv cfg ms v) (ha : v'.acked = v.acked) (hc : v'.ackedCount = v.ackedCount) :
    AckInv cfg ms v' :=
  ⟨by rw [ha, hi.size], by rw [ha, hc, hi.count], by rw [ha]; exact hi.acked⟩

theorem skip (hi : AckInv cfg ms v) {m : Feedback} (hm : ∀ i, m ≠ .decoded i) :
    AckInv cfg (ms ++ [m]) v := by
  refine ⟨hi.size, hi.count, fun b => ?_⟩
  have hne : Feedback.decoded b ≠ m := (hm b).symm
  simp only [hi.acked b, List.mem_append, List.mem_singleton, hne, or_false]

/-- A Decoded message acks its block, once and in range, and never panics. -/
theorem decoded (hi : AckInv cfg ms v) (i : UInt32) :
    ∃ v', v.onFeedback (.decoded i) = .ok (.go v') ∧ AckInv cfg (ms ++ [.decoded i]) v' := by
  have hmem : ∀ b, .decoded b ∈ ms ++ [.decoded i] ↔ .decoded b ∈ ms ∨ b = i := by simp
  by_cases ha : v.acked[i.toNat]? = some false
  · have hlt : i.toNat < v.acked.length := (List.getElem?_eq_some_iff.mp ha).1
    have hcount := count_set_true ha
    have hle : (v.acked.set i.toNat true).count true ≤ cfg.layout.numBlocks.toNat := by
      rw [← hi.size, ← List.length_set]
      exact List.count_le_length
    have hnb := cfg.layout.numBlocks.toNat_lt
    have hone : (1 : UInt32).toNat = 1 := rfl
    have hfits : v.ackedCount.toNat + (1 : UInt32).toNat < 2 ^ 32 := by rw [hi.count, hone]; omega
    have hadd : Checked.addU32 v.ackedCount 1 = .ok (v.ackedCount + 1) := if_pos hfits
    refine ⟨{ v with acked := v.acked.set i.toNat true, ackedCount := v.ackedCount + 1 }, ?_, ?_⟩
    · simp only [Spray.onFeedback, if_pos ha, hadd, Checked.ok_bind]
      rfl
    refine ⟨by rw [List.length_set, hi.size], ?_, fun b => ?_⟩
    · rw [Checked.addU32_eq_ok hadd, hcount, hi.count, hone]
    · rw [hmem]
      by_cases hb : b = i
      · subst hb
        have hlt' : b < cfg.layout.numBlocks := by rwa [UInt32.lt_iff_toNat_lt, ← hi.size]
        simp [hlt, hlt']
      · have hne : i.toNat ≠ b.toNat := fun he => hb (UInt32.toNat.inj he).symm
        rw [List.getElem?_set_ne hne, hi.acked b]
        simp only [hb, or_false]
  · refine ⟨v, by simp only [Spray.onFeedback, if_neg ha]; rfl, hi.size, hi.count, fun b => ?_⟩
    rw [hmem, hi.acked b]
    refine and_congr_right fun hb => ⟨.inl, fun h => ?_⟩
    rcases h with h | rfl
    · exact h
    · -- In range and not false: it was acked before.
      have hlt : b.toNat < v.acked.length := by rwa [hi.size, ← UInt32.lt_iff_toNat_lt]
      refine ((hi.acked b).mp ?_).2
      cases hx : v.acked[b.toNat] with
      | true => rw [List.getElem?_eq_getElem hlt, hx]
      | false => exact absurd (by rw [List.getElem?_eq_getElem hlt, hx]) ha

theorem step {s s' : SendState rq} {a : Act Frame} {e : Option Sealed}
    (hi : AckInv cfg ms s.v) (h : SendStep enc cfg s a e s') :
    AckInv cfg (ms ++ s.drained s') s'.v := by
  rcases h.drain_cases with ⟨m, hm, hv⟩ | ⟨hnone, hacked, hcount⟩
  · rw [hm]
    by_cases hdec : ∃ i, m = .decoded i
    · obtain ⟨i, rfl⟩ := hdec
      obtain ⟨v', hgo, hi'⟩ := hi.decoded i
      rcases hv with hv | ⟨-, hne⟩
      · cases hgo.symm.trans hv
        exact hi'
      · exact absurd hgo (hne v')
    · have hskip := hi.skip (m := m) fun i hmi => hdec ⟨i, hmi⟩
      rcases hv with hv | ⟨hsame, -⟩
      · rcases Spray.onFeedback_go hv with he | ⟨i, _, hmi, -⟩ | ⟨_, he⟩ | ⟨_, _, _, _, -, -, he⟩
        · exact hskip.of_eq (by rw [he]) (by rw [he])
        · exact absurd ⟨i, hmi⟩ hdec
        · exact hskip.of_eq (by rw [he]) (by rw [he])
        · exact hskip.of_eq (by rw [he]) (by rw [he])
      · rw [hsame]
        exact hskip
  · rw [hnone, List.append_nil]
    exact hi.of_eq hacked hcount

/-- The acks are a function of the messages drained. -/
theorem acked_unique (hi : AckInv cfg ms v) (hi' : AckInv cfg ms v') : v'.acked = v.acked := by
  have hlen : v'.acked.length = v.acked.length := by rw [hi.size, hi'.size]
  refine List.ext_getElem hlen fun n hn' hn => ?_
  have hlt : n < 2 ^ 32 := by
    have := cfg.layout.numBlocks.toNat_lt
    rw [hi.size] at hn
    omega
  have htoNat : (UInt32.ofNat n).toNat = n := UInt32.toNat_ofNat_of_lt' hlt
  have hiff := (hi'.acked (UInt32.ofNat n)).trans (hi.acked (UInt32.ofNat n)).symm
  rw [htoNat, List.getElem?_eq_getElem hn, List.getElem?_eq_getElem hn', Option.some.injEq,
    Option.some.injEq] at hiff
  exact Bool.eq_iff_iff.mpr hiff

end AckInv

/-! ## Runs -/

/-- A run of the sender leads to `s`, and `drain_feedback` took `ms` off the
channel in it, in however many calls. -/
def Drains (enc : Encrypt) (cfg : SendCfg) : SendState rq → List Feedback → Prop :=
  Runs.Emits (· = SendState.init rq cfg) id
    fun s out s' => SendNext enc cfg s s' ∧ out = s.drained s'

theorem Drains.inv {s : SendState rq} {ms : List Feedback} (h : Drains enc cfg s ms) :
    AckInv cfg ms s.v := by
  induction h with
  | start h =>
    subst h
    exact ackInv_new cfg
  | next _ hst ih =>
    obtain ⟨⟨a, e, hst⟩, rfl⟩ := hst
    exact ih.step hst

theorem drains_of_reachable {s : SendState rq}
    (h : Runs.Reachable (· = SendState.init rq cfg) (SendNext enc cfg) s) :
    ∃ ms, Drains enc cfg s ms := by
  obtain ⟨s₀, h₀, hrun⟩ := h
  induction hrun with
  | refl => exact ⟨[], .start h₀⟩
  | tail _ hst ih =>
    obtain ⟨ms, hms⟩ := ih
    exact ⟨_, hms.next ⟨hst, rfl⟩⟩

/-! ## The settle loop -/

/-- Inside the settle loop. -/
def SendPc.settling : SendPc → Bool
  | .settle | .drain (.settle _) => true
  | _ => false

/-- What a step inside the settle loop does that its bounds count. -/
inductive SettleAct
  /-- An iteration starts. -/
  | start
  /-- A message arrives on the channel. -/
  | arrival
  | other
  deriving DecidableEq

/-- A step inside the settle loop, of `transfer` or of its reader task. -/
def SettleStep (enc : Encrypt) (cfg : SendCfg) (s : SendState rq) (a : SettleAct)
    (s' : SendState rq) : Prop :=
  s.pc.settling = true ∧ SendNext enc cfg s s' ∧ (a = .start ↔ s.pc = .settle ∧ s'.pc ≠ .settle) ∧
    (a = .arrival ↔ s.chan.length < s'.chan.length)

/-- What a step inside the loop can do. -/
inductive SettleMove (cfg : SendCfg) (s s' : SendState rq) : Prop
  /-- The reader task hands a message over. -/
  | arrival (hpc : s'.pc = s.pc) (hchan : s'.chan.length = s.chan.length + 1)
    (hr : s.reader ≠ .stopped) (hr' : s'.reader ≠ .stopped)
  | readerReturn (hpc : s'.pc = s.pc) (hchan : s'.chan = s.chan) (hr : s.reader ≠ .stopped)
    (hr' : s'.reader = .stopped)
  | drain (hpc : s'.pc = s.pc) (hchan : s.chan.length = s'.chan.length + 1)
    (hr : s'.reader = s.reader)
  | start (hpc : s.pc = .settle) (hpc' : s'.pc = .drain (.settle s.v.ackedCount))
    (hchan : s'.chan = s.chan) (hr : s'.reader = s.reader)
  /-- The next iteration, after a new ack. -/
  | again (before : UInt32) (hpc : s.pc = .drain (.settle before)) (hpc' : s'.pc = .settle)
    (hsame : s'.v.ackedCount = s.v.ackedCount) (hnew : s.v.ackedCount ≠ before)
    (hmiss : s.v.ackedCount ≠ cfg.layout.numBlocks) (hchan : s'.chan = s.chan)
    (hr : s'.reader = s.reader)
  | leave (before : UInt32) (hpc : s.pc = .drain (.settle before)) (hpc' : s'.pc.settling = false)

theorem SendPc.settling_iff {pc : SendPc} :
    pc.settling = true ↔ pc = .settle ∨ ∃ before, pc = .drain (.settle before) := by
  constructor
  · intro h
    unfold settling at h
    split at h
    · exact .inl rfl
    · exact .inr ⟨_, rfl⟩
    · cases h
  · rintro (rfl | ⟨_, rfl⟩) <;> rfl

theorem SendPc.settling_drain {k : Resume} (h : (SendPc.drain k).settling = true) :
    ∃ before, k = .settle before := by
  rcases settling_iff.mp h with hx | ⟨before, hx⟩
  · cases hx
  · exact ⟨before, SendPc.drain.inj hx⟩

theorem SendStep.settling_cases {s s' : SendState rq} {a : Act Frame} {e : Option Sealed}
    (h : SendStep enc cfg s a e s') (hs : s.pc.settling = true) : SettleMove cfg s s' := by
  cases h with
  | readerRead hr =>
    refine .arrival rfl (by simp) (by simp [hr]) ?_
    simp only []
    split <;> simp
  | readerFail hr => exact .arrival rfl (by simp) (by simp [hr]) (by simp)
  | readerReturn hr => exact .readerReturn rfl rfl (by simp [hr]) rfl
  | drainGo _ hm => exact .drain rfl (by simp [hm]) rfl
  | settle h => exact .start h rfl rfl rfl
  | drainEmpty h =>
    rw [h] at hs
    obtain ⟨before, rfl⟩ := SendPc.settling_drain hs
    by_cases hquiet : s.v.ackedCount = before ∨ s.v.ackedCount = cfg.layout.numBlocks
    · have hres : SendState.resume cfg s.v (.settle before) = .drain .top := if_pos hquiet
      exact .leave before h (by rw [hres]; rfl)
    · have hres : SendState.resume cfg s.v (.settle before) = .settle := if_neg hquiet
      rw [not_or] at hquiet
      exact .again before h hres rfl hquiet.1 hquiet.2 rfl rfl
  | drainDone h | drainErr h | drainPanic h | drainClosed h =>
    rw [h] at hs
    obtain ⟨before, rfl⟩ := SendPc.settling_drain hs
    exact .leave before h rfl
  | readFail h | callFail h | flushPanic h =>
    -- The loop reads no frame itself and makes no call that fails.
    rcases SendPc.settling_iff.mp hs with hpc | ⟨_, hpc⟩ <;> rw [hpc] at h <;> cases h
  | hello h | helloAck h | helloAckOther h | manifest h | manifestAck h | manifestAckOther h
  | openPush h | openPushNone h | openPull h | openPullTimeout h | selectAwait h | selectBlocks h
  | awaitDone h | awaitOther h | awaitFail h | skip h | turn h | turnPanic h | blocksEnd h
  | dropped h | queued h | encodeFail h | packetPanic h | packetsEnd h | flush h | flushTail h
  | roundEnd h | roundPanic h =>
    rw [h] at hs
    cases hs

theorem SendStep.ackedCount_le {s s' : SendState rq} {a : Act Frame} {e : Option Sealed}
    (h : SendStep enc cfg s a e s') : s.v.ackedCount.toNat ≤ s'.v.ackedCount.toNat := by
  rcases h.drain_cases with ⟨m, -, hv | ⟨hsame, -⟩⟩ | ⟨-, -, hcount⟩
  · rcases Spray.onFeedback_go hv with he | ⟨_, n, -, -, hn, he⟩ | ⟨_, he⟩ | ⟨_, _, _, _, -, -, he⟩
    · rw [he]
    · rw [he, Checked.addU32_eq_ok hn]
      exact Nat.le_add_right _ _
    · rw [he]
    · rw [he]
  · rw [hsame]
  · rw [hcount]

/-- The iterations still to start: one for each missing ack, and at least one,
before an iteration; one less inside it. -/
theorem starts_le {s t : SendState rq} {acts : List SettleAct}
    (h : Runs.Trace (SettleStep enc cfg) s acts t) {ms : List Feedback}
    (hi : AckInv cfg ms s.v) :
    (s.pc = .settle →
      acts.count .start ≤ max 1 (cfg.layout.numBlocks.toNat - s.v.ackedCount.toNat)) ∧
    ∀ before, s.pc = .drain (.settle before) → before.toNat ≤ s.v.ackedCount.toNat →
      acts.count .start ≤ cfg.layout.numBlocks.toNat - before.toNat - 1 := by
  induction h generalizing ms with
  | nil => simp
  | @cons s s₁ t act acts hst htail ih =>
    obtain ⟨hset, ⟨a, e, hstep⟩, hstart, -⟩ := hst
    have hmono := hstep.ackedCount_le
    obtain ⟨ihsettle, ihdrain⟩ := ih (hi.step hstep)
    have hone : (act :: acts).count .start ≤ acts.count .start + 1 := by
      rw [List.count_cons]
      split <;> omega
    have hquiet : ¬ (s.pc = .settle ∧ s₁.pc ≠ .settle) →
        (act :: acts).count .start = acts.count .start := by
      intro hn
      rw [List.count_cons_of_ne (mt hstart.mp hn)]
    have hstay : s₁.pc = s.pc → (s.pc = .settle →
        (act :: acts).count .start ≤ max 1 (cfg.layout.numBlocks.toNat - s.v.ackedCount.toNat)) ∧
        ∀ before, s.pc = .drain (.settle before) → before.toNat ≤ s.v.ackedCount.toNat →
          (act :: acts).count .start ≤ cfg.layout.numBlocks.toNat - before.toNat - 1 := by
      -- The step starts nothing, and acks only come in.
      intro hsame
      rw [hquiet fun hx => hx.2 (hsame.trans hx.1)]
      refine ⟨fun hpc => ?_, fun before hpc hle => ?_⟩
      · have := ihsettle (hsame.trans hpc)
        omega
      · exact ihdrain before (hsame.trans hpc) (hle.trans hmono)
    cases hstep.settling_cases hset with
    | arrival hpc | readerReturn hpc | drain hpc => exact hstay hpc
    | start hpc hpc' =>
      refine ⟨fun _ => ?_, fun before hx => ?_⟩
      · have := ihdrain _ hpc' hmono
        omega
      · rw [hpc] at hx
        cases hx
    | again b hpc hpc' hsame hnew hmiss =>
      refine ⟨fun hx => ?_, fun before hx hle => ?_⟩
      · rw [hpc] at hx
        cases hx
      cases hpc.symm.trans hx
      have hcount := hi.count_le
      have hne : b.toNat ≠ s.v.ackedCount.toNat := fun he => hnew (UInt32.toNat.inj he).symm
      have hne' : s.v.ackedCount.toNat ≠ cfg.layout.numBlocks.toNat :=
        fun he => hmiss (UInt32.toNat.inj he)
      have hnext := ihsettle hpc'
      rw [hsame] at hnext
      rw [hquiet fun hx => by rw [hpc] at hx; cases hx.1]
      omega
    | leave b hpc hpc' =>
      -- Out of the loop the trace ends.
      have hnil : acts = [] := by
        cases htail with
        | nil => rfl
        | cons hst' _ => rw [hst'.1] at hpc'; cases hpc'
      subst hnil
      refine ⟨fun _ => hone.trans (le_max_left _ _), fun before hx _ => ?_⟩
      rw [hquiet fun hy => by rw [hx] at hy; cases hy.1]
      exact Nat.zero_le _

/-- Whether an iteration of the settle loop is still to end. -/
def SendPc.iterating : SendPc → Nat
  | .settle => 0
  | _ => 1

/-- What is left to do inside the loop before an iteration starts or a message
arrives: the messages on the channel, the reader's return, and the end of the
iteration. -/
def SendState.settleWork (s : SendState rq) : Nat :=
  s.chan.length + (if s.reader = .stopped then 0 else 1) + s.pc.iterating

/-- Every step inside the loop is work done, unless it makes some. -/
theorem SettleStep.work {s s' : SendState rq} {a : SettleAct} (h : SettleStep enc cfg s a s') :
    (if s'.pc.settling then s'.settleWork else 0) + 1 ≤
      s.settleWork + 2 * [a].count .arrival + 2 * [a].count .start := by
  obtain ⟨hset, ⟨act, e, hstep⟩, hstart, harrival⟩ := h
  cases hstep.settling_cases hset with
  | arrival hpc hchan hr hr' =>
    obtain rfl := harrival.mpr (by omega)
    rw [hpc, if_pos hset]
    simp only [SendState.settleWork, hpc, hchan, if_neg hr, if_neg hr', List.count_singleton_self]
    omega
  | readerReturn hpc hchan hr hr' =>
    rw [hpc, if_pos hset]
    simp only [SendState.settleWork, hpc, hchan, if_neg hr, if_pos hr']
    omega
  | drain hpc hchan hr =>
    rw [hpc, if_pos hset]
    simp only [SendState.settleWork, hpc, hchan, hr]
    omega
  | start hpc hpc' hchan hr =>
    obtain rfl := hstart.mpr ⟨hpc, by rw [hpc']; exact fun hx => by cases hx⟩
    simp only [hpc', SendPc.settling, if_true, SendState.settleWork, hpc, hchan, hr,
      SendPc.iterating, List.count_singleton_self]
    omega
  | again b hpc hpc' _ _ _ hchan hr =>
    simp only [hpc', SendPc.settling, if_true, SendState.settleWork, hpc, hchan, hr,
      SendPc.iterating]
    omega
  | leave b hpc hpc' =>
    rw [hpc']
    simp only [SendState.settleWork, hpc, SendPc.iterating, Bool.false_eq_true, if_false]
    omega

theorem settle_length_le {s t : SendState rq} {acts : List SettleAct}
    (h : Runs.Trace (SettleStep enc cfg) s acts t) :
    acts.length ≤ s.settleWork + 2 * acts.count .arrival + 2 * acts.count .start := by
  induction h with
  | nil => exact Nat.zero_le _
  | @cons s s₁ t act acts hst htail ih =>
    have hwork := hst.work
    have hcount : ∀ b, ([act] ++ acts).count b = [act].count b + acts.count b :=
      fun b => List.count_append
    rw [List.singleton_append] at hcount
    rw [hcount, hcount, List.length_cons]
    by_cases hin : s₁.pc.settling = true
    · rw [if_pos hin] at hwork
      omega
    · -- Out of the loop the trace ends.
      rw [if_neg hin] at hwork
      cases htail with
      | nil =>
        rw [List.length_nil]
        omega
      | cons hst' _ => exact absurd hst'.1 hin

theorem settling_next {s : SendState rq} (cfg : SendCfg) (h : s.pc.settling = true) :
    ∃ s', SendNext enc cfg s s' := by
  cases hpc : s.pc with
  | settle => exact ⟨_, _, _, .settle hpc⟩
  | drain k =>
    cases hchan : s.chan with
    | nil =>
      by_cases hr : s.reader = .stopped
      · exact ⟨_, _, _, .drainClosed hpc hchan hr⟩
      · exact ⟨_, _, _, .drainEmpty hpc hchan hr⟩
    | cons m ms =>
      cases hv : s.v.onFeedback m with
      | error p => exact ⟨_, _, _, .drainPanic hpc hchan hv⟩
      | ok d =>
        cases d with
        | go v => exact ⟨_, _, _, .drainGo hpc hchan hv⟩
        | done ok error => exact ⟨_, _, _, .drainDone hpc hchan hv⟩
        | err e => exact ⟨_, _, _, .drainErr hpc hchan hv⟩
  | _ =>
    rw [hpc] at h
    cases h

/-- **Acks under any feedback.** After any run, whatever messages `drain_feedback`
took off the channel and in however many calls: `acked_count` is the number of
acks and at most the number of blocks; the blocks acked are those in range of the
Decoded messages drained, so any two runs that drained the same messages agree;
and no later step takes an ack back. From the head of the settle loop no more
iterations start than blocks are missing, and one; the steps inside the loop are
bounded by them and the messages there are, and none is stuck. -/
theorem ack_bookkeeping {s : SendState rq} {ms : List Feedback} (h : Drains enc cfg s ms) :
    (s.v.ackedCount.toNat = s.v.acked.count true ∧ s.v.ackedCount ≤ cfg.layout.numBlocks) ∧
    (∀ b : UInt32, s.v.acked[b.toNat]? = some true ↔
      b < cfg.layout.numBlocks ∧ .decoded b ∈ ms) ∧
    (∀ t : SendState rq, Drains enc cfg t ms → t.v.acked = s.v.acked) ∧
    (∀ t, Relation.ReflTransGen (SendNext enc cfg) s t → ∀ b : UInt32,
      s.v.acked[b.toNat]? = some true → t.v.acked[b.toNat]? = some true) ∧
    (s.pc = .settle → ∀ acts t, Runs.Trace (SettleStep enc cfg) s acts t →
      let bound := cfg.layout.numBlocks.toNat - s.v.ackedCount.toNat + 1
      acts.count .start ≤ bound ∧
      acts.length ≤ s.chan.length + 2 * acts.count .arrival + 2 * bound + 1 ∧
      (t.pc.settling = true → ∃ t', SendNext enc cfg t t')) := by
  have hi := h.inv
  refine ⟨⟨hi.count, UInt32.le_iff_toNat_le.mpr hi.count_le⟩, hi.acked,
    fun t ht => hi.acked_unique ht.inv, fun t hrun b hb => ?_, fun hpc acts t hrun => ?_⟩
  · induction hrun with
    | refl => exact hb
    | tail _ hst ih =>
      obtain ⟨a, e, hst⟩ := hst
      exact hst.acked_mono.2 b ih
  · have hstarts := (starts_le hrun hi).1 hpc
    have hlen := settle_length_le hrun
    have hwork : s.settleWork ≤ s.chan.length + 1 := by
      simp only [SendState.settleWork, hpc, SendPc.iterating]
      split <;> omega
    exact ⟨by omega, by omega, settling_next cfg⟩

/-- The tiny file in two blocks. -/
def twoBlocks : SendCfg :=
  { tinyCfg .plain "" 200 with
    layout := { (tinyCfg .plain "" 200).layout with
      blockSize := 64, numBlocks := 2, block_pos := by decide, blocks_eq := by decide }
    fits := by simp [tinyCfg, tinyData] }

set_option maxRecDepth 4000 in
/-- A peer that acks block 0 twice, and block 7 of two. -/
theorem ack_bookkeeping_repeated : ∃ (s : SendState .repetition) (ms : List Feedback),
    Drains (fun _ _ _ => none) twoBlocks s ms ∧ ms = [.decoded 0, .decoded 0, .decoded 7] ∧
    s.v.acked = [true, false] ∧ s.v.ackedCount.toNat = s.v.acked.count true ∧
    ∀ b : UInt32, s.v.acked[b.toNat]? = some true ↔
      b < twoBlocks.layout.numBlocks ∧ .decoded b ∈ ms := by
  have h₀ : Drains (fun _ _ _ => none) twoBlocks (SendState.init .repetition twoBlocks) [] :=
    .start rfl
  have h₁ := h₀.next ⟨⟨.write twoBlocks.hello true, _, .hello rfl⟩, rfl⟩
  have h₂ := h₁.next ⟨⟨.read (.helloAck (some 1)), _, .helloAck rfl⟩, rfl⟩
  have h₃ := h₂.next ⟨⟨.write twoBlocks.manifest true, _, .manifest rfl⟩, rfl⟩
  have h₄ := h₃.next ⟨⟨_, _, .manifestAck rfl⟩, rfl⟩
  have h₅ := h₄.next ⟨⟨_, _, .openPush rfl rfl⟩, rfl⟩
  have h₆ := h₅.next ⟨⟨_, _, .readerRead (f := .blockDecoded 0) rfl⟩, rfl⟩
  have h₇ := h₆.next ⟨⟨_, _, .readerRead (f := .blockDecoded 0) rfl⟩, rfl⟩
  have h₈ := h₇.next ⟨⟨_, _, .readerRead (f := .blockDecoded 7) rfl⟩, rfl⟩
  have h₉ := h₈.next ⟨⟨_, _, .drainGo rfl rfl (by rfl)⟩, rfl⟩
  have h₁₀ := h₉.next ⟨⟨_, _, .drainGo rfl rfl (by rfl)⟩, rfl⟩
  have h₁₁ := h₁₀.next ⟨⟨_, _, .drainGo rfl rfl (by rfl)⟩, rfl⟩
  have hacks := ack_bookkeeping h₁₁
  exact ⟨_, _, h₁₁, rfl, rfl, hacks.1.1, hacks.2.1⟩

end AtpExperiment
