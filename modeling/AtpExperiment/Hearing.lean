/-
What the sender hears, from the receiver's writes to the sender's locals.

A frame the receiver writes goes over the control stream, through the reader task
and its channel, and is taken off it by `drain_feedback`, or by the wait for Done,
which ignores everything else. `Hears` follows it through every interleaving:
nothing is duplicated or reordered, nothing is lost without a cut, and nothing is
ignored while a block is unacked and the receiver there (`feedback_exactly_once`).
On the sealed plane the loss estimate is then about the wire itself
(`loss_samples_exact`).
-/
import AtpExperiment.AckSettle
import AtpExperiment.Geometry
import AtpExperiment.Innovation
import AtpExperiment.LossEstimate

namespace AtpExperiment

open Octets Aead Duplex Spans

variable {rq : Raptorq} {enc : Encrypt} {cfg : SendCfg}

/-! ## Where a message is ignored -/

/-- No block is left to spray, or nobody to spray to. -/
def Spray.Idle (cfg : SendCfg) (v : Spray rq) : Prop :=
  v.pending cfg = [] ∨ v.receiverGone = true

/-- Within a round the receiver is there; Done is waited for with nothing to spray. -/
structure IdleInv (cfg : SendCfg) (s : SendState rq) : Prop where
  round : s.pc.todo ≠ none → s.v.receiverGone = false
  await : s.pc = .await → s.v.Idle cfg

theorem idleInv_init (cfg : SendCfg) : IdleInv cfg (SendState.init rq cfg) where
  round h := absurd rfl h
  await h := by cases h

theorem IdleInv.of_pc {s : SendState rq} (ht : s.pc.todo = none) (ha : s.pc ≠ .await) :
    IdleInv cfg s where
  round h := absurd ht h
  await h := absurd h ha

theorem IdleInv.of_eq {s s' : SendState rq} (hi : IdleInv cfg s) (hpc : s'.pc = s.pc)
    (hv : s'.v = s.v) : IdleInv cfg s' := by
  rcases s with ⟨pc, v, reader, chan, turns⟩
  rcases s' with ⟨pc', v', reader', chan', turns'⟩
  cases hpc
  cases hv
  exact ⟨hi.round, hi.await⟩

theorem IdleInv.of_round {s : SendState rq} (hg : s.v.receiverGone = false)
    (ha : s.pc ≠ .await) : IdleInv cfg s where
  round _ := hg
  await h := absurd h ha

theorem SendStep.idleInv {s s' : SendState rq} {a : Act Frame} {e : Option Sealed}
    (h : SendStep enc cfg s a e s') (hi : IdleInv cfg s) : IdleInv cfg s' := by
  cases h with
  | readerRead | readerFail | readerReturn => exact hi.of_eq rfl rfl
  | @hello ok | @manifest _ ok => cases ok <;> exact .of_pc rfl (by simp [SendPc.ifOk])
  | @drainGo k m ms v h hm hv =>
    obtain ⟨_, _, _, _, _, rfl⟩ := Spray.onFeedback_frame hv
    exact ⟨fun ht => hi.round ht, fun ha => by simp [h] at ha⟩
  | @drainEmpty k h =>
    have hround := hi.round
    rw [h] at hround
    rcases SendState.resume_cases cfg s.v k with hk | ⟨todo, rfl, hk⟩ | hk | hk
    · exact .of_pc (by simp [hk, SendPc.todo]) (by simp [hk])
    · exact .of_round (hround (by simp [SendPc.todo])) (by simp [hk])
    · exact .of_pc (by simp [hk, SendPc.todo]) (by simp [hk])
    · exact .of_pc (by simp [hk, SendPc.todo]) (by simp [hk])
  | selectAwait h hp => exact ⟨fun ht => absurd rfl ht, fun _ => hp⟩
  | selectBlocks h hp =>
    exact .of_round (by simpa using (not_or.mp hp).2) (by simp)
  | skip h => exact .of_round (hi.round (by simp [h, SendPc.todo])) (by simp)
  | turn h _ hv =>
    obtain ⟨_, _, rfl⟩ := Spray.startTurn_frame hv
    exact .of_round (hi.round (by simp [h, SendPc.todo])) (by simp)
  | dropped h hv =>
    obtain ⟨_, _, _, _, _, _, rfl⟩ := Spray.sendPacket_frame hv
    exact .of_round (hi.round (by simp [h, SendPc.todo])) (by simp)
  | queued h hv =>
    obtain ⟨_, _, _, _, _, _, rfl⟩ := Spray.sendPacket_frame hv
    refine .of_round (hi.round (by simp [h, SendPc.todo])) ?_
    simp only
    split <;> simp
  | @packetsEnd b todo h =>
    refine .of_round (hi.round (by simp [h, SendPc.todo])) ?_
    rcases SendState.endTurn_cases s.v todo with hk | ⟨-, hk⟩ | hk <;> simp [hk]
  | flush h now gone hg hv | flushTail h now gone hg hv =>
    obtain ⟨_, -, rfl⟩ := Spray.flushed_ok hg hv
    cases gone with
    | true => exact .of_pc rfl (by simp)
    | false => exact .of_round rfl (by simp)
  | _ => exact .of_pc rfl (by simp [SendState.fail, SendState.finish])

/-- Only a flush tells whether the receiver is there, and it is within a round. -/
theorem SendStep.gone {s s' : SendState rq} {a : Act Frame} {e : Option Sealed}
    (h : SendStep enc cfg s a e s') :
    s'.v.receiverGone = s.v.receiverGone ∨ s.pc.todo ≠ none := by
  cases h with
  | drainGo h hm hv =>
    obtain ⟨_, _, _, _, _, rfl⟩ := Spray.onFeedback_frame hv
    exact .inl rfl
  | turn h | dropped h | queued h | encodeFail h | flush h | flushTail h =>
    exact .inr (by simp [h, SendPc.todo])
  | _ => exact .inl rfl

theorem Spray.pending_eq_nil {v : Spray rq} : v.pending cfg = [] ↔
    ∀ i < cfg.layout.numBlocks.toNat, v.acked[i]? ≠ some false := by
  simp [pending, List.filter_eq_nil_iff]

theorem SendStep.idle {s s' : SendState rq} {a : Act Frame} {e : Option Sealed}
    (h : SendStep enc cfg s a e s') (hi : IdleInv cfg s) (hv : s.v.Idle cfg) : s'.v.Idle cfg := by
  rcases hv with hp | hg
  · obtain ⟨hlen, hmono⟩ := h.acked_mono
    rw [Spray.pending_eq_nil] at hp
    refine .inl (Spray.pending_eq_nil.mpr fun i hi hf => ?_)
    have hi' : (UInt32.ofNat i).toNat = i :=
      UInt32.toNat_ofNat_of_lt' (hi.trans cfg.layout.numBlocks.toNat_lt)
    have hlt : i < s.v.acked.length := by
      rw [← hlen]
      exact (List.getElem?_eq_some_iff.mp hf).1
    have htrue : s.v.acked[i]? = some true := by
      have hne := hp i hi
      rw [List.getElem?_eq_getElem hlt] at hne ⊢
      simpa using hne
    have hkept := hmono (UInt32.ofNat i) (by rw [hi', htrue])
    rw [hi', hf] at hkept
    cases hkept
  · rcases h.gone with he | ht
    · exact .inr (by rw [he, hg])
    · rw [hi.round ht] at hg
      cases hg

/-! ## A step -/

/-- The message the reader task makes of a frame. -/
def Frame.feedback (f : Frame) : Feedback := (readerTask f).1

theorem Frame.feedback_eq_decoded {f : Frame} {b : UInt32} :
    f.feedback = .decoded b ↔ f = .blockDecoded b := by
  cases f <;> simp [Frame.feedback, readerTask]

/-- The replies read where the handshake is. -/
def SendPc.replies : SendPc → Option (List Frame)
  | .hello | .helloAck => some []
  | .manifest p | .manifestAck p => some [.helloAck p]
  | _ => none

/-- A step leaves the handshake, or stays where it is in it. -/
def SendPc.Keeps (pc pc' : SendPc) : Prop := pc'.replies = none ∨ pc'.replies = pc.replies

/-- What a step of the sender does with what the receiver wrote. -/
inductive HearMove (s : SendState rq) (a : Act Frame) (s' : SendState rq) : Prop
  /-- A reply in the handshake; the reader task starts after the second one. -/
  | reply {f : Frame} {fs : List Frame} (ha : a = .read f) (hchan : s'.chan = s.chan)
    (hv : s'.v = s.v) (hfs : s.pc.replies = some fs)
    (hpc : s'.pc.replies = none ∨ s'.pc.replies = some (fs ++ [f]) ∧ s'.reader = s.reader)
    (hr : s'.reader = s.reader ∨
      s'.reader = .running ∧ ∃ p, fs ++ [f] = [.helloAck p, .manifestAck])
  /-- A frame goes through the reader task. -/
  | heard {f : Frame} (ha : a = .read f) (hr : s.reader = .running) (hr' : s'.reader ≠ .none)
    (hchan : s'.chan = s.chan ++ [f.feedback]) (hv : s'.v = s.v) (hpc : s'.pc = s.pc)
  /-- The stream has ended. -/
  | closed (ha : a = .readFail) (hr : s.reader = .running) (hr' : s'.reader = .returning)
    (hchan : s'.chan = s.chan ++ [.closed none]) (hv : s'.v = s.v) (hpc : s'.pc = s.pc)
  /-- `drain_feedback` goes on after a message. -/
  | handled {m : Feedback} (ha : a = .tau) (hchan : s.chan = m :: s'.chan)
    (hr : s'.reader = s.reader) (hv : s.v.onFeedback m = .ok (.go s'.v)) (hpc : s'.pc = s.pc)
  /-- It returns after one, or the wait for Done takes it. -/
  | ignored {m : Feedback} (ha : a = .tau) (hchan : s.chan = m :: s'.chan)
    (hr : s'.reader = s.reader) (hv : s'.v = s.v) (hpc : s'.pc.alive = false ∨ s.pc = .await)
    (hkeeps : s.pc.Keeps s'.pc)
  /-- No frame and no message. -/
  | other (ha : a.got = []) (hchan : s'.chan = s.chan)
    (hr : s'.reader = s.reader ∨ s.reader = .returning ∧ s'.reader = .stopped)
    (hloss : s'.v.loss = s.v.loss) (hacked : s'.v.acked = s.v.acked)
    (hcount : s'.v.ackedCount = s.v.ackedCount) (hkeeps : s.pc.Keeps s'.pc)

theorem SendStep.hears {s s' : SendState rq} {a : Act Frame} {e : Option Sealed}
    (h : SendStep enc cfg s a e s') : HearMove s a s' := by
  cases h with
  | helloAck h =>
    exact .reply rfl rfl rfl (by rw [h]; rfl) (.inr ⟨rfl, rfl⟩) (.inl rfl)
  | helloAckOther h => exact .reply rfl rfl rfl (by rw [h]; rfl) (.inl rfl) (.inl rfl)
  | manifestAck h =>
    exact .reply rfl rfl rfl (by rw [h]; rfl) (.inl rfl) (.inr ⟨rfl, _, rfl⟩)
  | manifestAckOther h => exact .reply rfl rfl rfl (by rw [h]; rfl) (.inl rfl) (.inl rfl)
  | @readerRead f h =>
    refine .heard rfl h ?_ rfl rfl rfl
    simp only
    split <;> simp
  | readerFail h => exact .closed rfl h rfl rfl rfl rfl
  | readerReturn h => exact .other rfl rfl (.inr ⟨h, rfl⟩) rfl rfl rfl (.inr rfl)
  | drainGo h hm hv => exact .handled rfl hm rfl hv rfl
  | drainDone h hm | drainErr h hm | drainPanic h hm | awaitDone h hm =>
    exact .ignored rfl hm rfl rfl (.inl rfl) (.inl rfl)
  | awaitOther h hm => exact .ignored rfl hm rfl rfl (.inr h) (.inl rfl)
  | @hello ok h | @manifest _ ok h =>
    refine .other rfl rfl (.inl rfl) rfl rfl rfl ?_
    cases ok with
    | true => exact .inr (by rw [h]; rfl)
    | false => exact .inl rfl
  | turn _ _ hv =>
    obtain ⟨_, _, rfl⟩ := Spray.startTurn_frame hv
    exact .other rfl rfl (.inl rfl) rfl rfl rfl (.inl rfl)
  | dropped _ hv | encodeFail _ hv =>
    obtain ⟨_, _, _, _, _, _, rfl⟩ := Spray.sendPacket_frame hv
    exact .other rfl rfl (.inl rfl) rfl rfl rfl (.inl rfl)
  | queued _ hv =>
    obtain ⟨_, _, _, _, _, _, rfl⟩ := Spray.sendPacket_frame hv
    refine .other rfl rfl (.inl rfl) rfl rfl rfl (.inl ?_)
    simp only
    split <;> rfl
  | @drainEmpty k h =>
    refine .other rfl rfl (.inl rfl) rfl rfl rfl (.inl ?_)
    rcases SendState.resume_cases cfg s.v k with hk | ⟨_, -, hk⟩ | hk | hk <;>
      simp only [hk] <;> rfl
  | @packetsEnd b todo h =>
    refine .other rfl rfl (.inl rfl) rfl rfl rfl (.inl ?_)
    rcases SendState.endTurn_cases s.v todo with hk | ⟨-, hk⟩ | hk <;> simp only [hk] <;> rfl
  | flush h now gone hg hv | flushTail h now gone hg hv =>
    obtain ⟨_, -, rfl⟩ := Spray.flushed_ok hg hv
    refine .other rfl rfl (.inl rfl) rfl rfl rfl (.inl ?_)
    cases gone <;> rfl
  | _ => exact .other rfl rfl (.inl rfl) rfl rfl rfl (.inl rfl)

theorem SendStep.alive {s s' : SendState rq} {a : Act Frame} {e : Option Sealed}
    (h : SendStep enc cfg s a e s') (ha : s'.pc.alive = true) : s.pc.alive = true := by
  cases h with
  | readerRead | readerFail | readerReturn => exact ha
  | readFail | callFail | flushPanic => cases ha
  | hello h | helloAck h | helloAckOther h | manifest h | manifestAck h | manifestAckOther h
  | openPush h | openPushNone h | openPull h | openPullTimeout h | drainGo h | drainDone h
  | drainErr h | drainPanic h | drainEmpty h | drainClosed h | selectAwait h | selectBlocks h
  | awaitDone h | awaitOther h | awaitFail h | skip h | turn h | turnPanic h | blocksEnd h
  | dropped h | queued h | encodeFail h | packetPanic h | packetsEnd h | flush h | flushTail h
  | roundEnd h | roundPanic h | settle h => rw [h]; rfl

/-! ## Reports -/

/-- What the loss estimate uses of a message. -/
def Feedback.report : Feedback → Option (UInt64 × Option UInt64)
  | .progress pkts span _ => if 0 < pkts then some (pkts, span) else none
  | _ => none

/-- An update with the counts of a report; without a span, the packets sent count. -/
def LossUpdate.Of (l : LossUpdate) (r : UInt64 × Option UInt64) : Prop :=
  l.counts.1 = r.1 ∧ ∀ span, r.2 = some span → l.counts.2 = span

/-- The loss estimate is that of the messages, in order. -/
def Estimates (loss : LossEstimator) (ms : List Feedback) : Prop :=
  ∃ ls, Runs.Trace Updated .new ls loss ∧ List.Forall₂ LossUpdate.Of ls (ms.filterMap (·.report))

theorem Spray.onFeedback_loss {v v' : Spray rq} {m : Feedback} (h : v.onFeedback m = .ok (.go v')) :
    (m.report = none ∧ v'.loss = v.loss) ∨
      ∃ pkts span, m.report = some (pkts, span) ∧
        v.loss.update pkts (span.getD v.packetsSent) = .ok v'.loss := by
  cases m with
  | decoded i =>
    simp only [Spray.onFeedback] at h
    split at h
    · simp only [Checked.bind_eq_ok] at h
      obtain ⟨n, -, h⟩ := h
      cases h
      exact .inl ⟨rfl, rfl⟩
    · cases h
      exact .inl ⟨rfl, rfl⟩
  | progress pkts span tMs =>
    simp only [Spray.onFeedback] at h
    split at h
    · next hpos =>
      simp only [Checked.bind_eq_ok] at h
      obtain ⟨loss, hloss, h⟩ := h
      refine .inr ⟨pkts, span, if_pos hpos, ?_⟩
      split at h
      · cases h
        exact hloss
      · simp only [Checked.bind_eq_ok] at h
        obtain ⟨x, -, h⟩ := h
        cases h
        exact hloss
    · next hpos =>
      cases h
      exact .inl ⟨if_neg hpos, rfl⟩
  | done | closed => cases h

theorem Estimates.handled {v v' : Spray rq} {m : Feedback} {ms : List Feedback}
    (he : Estimates v.loss ms) (h : v.onFeedback m = .ok (.go v')) :
    Estimates v'.loss (ms ++ [m]) := by
  obtain ⟨ls, htrace, hof⟩ := he
  rcases Spray.onFeedback_loss h with ⟨hnone, hloss⟩ | ⟨pkts, span, hsome, hupdate⟩
  · refine ⟨ls, hloss ▸ htrace, ?_⟩
    rw [Runs.filterMap_concat, hnone, Option.toList_none, List.append_nil]
    exact hof
  · refine ⟨ls ++ [⟨v.loss, (pkts, span.getD v.packetsSent), v'.loss⟩],
      htrace.concat ⟨rfl, rfl, hupdate⟩, ?_⟩
    rw [Runs.filterMap_concat, hsome]
    refine List.rel_append hof (.cons ⟨rfl, fun q hq => ?_⟩ .nil)
    rw [show span = some q from hq]
    rfl

theorem AckInv.handled {v v' : Spray rq} {m : Feedback} {ms : List Feedback}
    (hi : AckInv cfg ms v) (h : v.onFeedback m = .ok (.go v')) : AckInv cfg (ms ++ [m]) v' := by
  by_cases hm : ∃ i, m = .decoded i
  · obtain ⟨i, rfl⟩ := hm
    obtain ⟨w, hw, hi'⟩ := hi.decoded i
    cases hw.symm.trans h
    exact hi'
  · have hne : ∀ i, m ≠ .decoded i := fun i he => hm ⟨i, he⟩
    refine (hi.skip hne).of_eq ?_ ?_
    all_goals
      rcases Spray.onFeedback_go h with rfl | ⟨i, _, he, -⟩ | ⟨_, rfl⟩ | ⟨_, _, _, _, -, -, rfl⟩
      · rfl
      · exact absurd he (hne i)
      · rfl
      · rfl

/-! ## The history -/

/-- With what the sender has read, taken off the channel, and handled: the
frames come in the order they were written, after the two replies of the handshake
each as one message; what the reader task adds of its own is the end of a cut
stream; and what is handled is what is taken, in order, and all of it as long as
there is something to spray. -/
structure Hears (cfg : SendCfg) (s : Sys rq) (heard : List Frame) (taken ms : List Feedback) :
    Prop where
  wire : Carried s.toSend s.rcv.wrote heard
  replied : ∀ fs, s.snd.pc.replies = some fs → heard = fs ∧ s.snd.reader = .none
  early : s.snd.reader = .none → s.snd.chan = [] ∧ taken = []
  late : s.snd.reader ≠ .none → ∃ port rest tail, heard = .helloAck port :: .manifestAck :: rest ∧
    taken ++ s.snd.chan = rest.map Frame.feedback ++ tail ∧
    (tail = [] ∨ tail = [.closed none] ∧ s.snd.reader ≠ .running ∧ s.toSend.cut = true ∧
      s.toSend.queue = [])
  handled : ms.Sublist taken
  all : s.snd.pc.alive = true → ¬ s.snd.v.Idle cfg → ms = taken
  acks : AckInv cfg ms s.snd.v
  loss : Estimates s.snd.v.loss ms

theorem hears_start (rq : Raptorq) (S : Session) : Hears S.cfg (S.start rq) [] [] [] where
  wire := carried_nil
  replied _ h := ⟨Option.some.inj h, rfl⟩
  early _ := ⟨rfl, rfl⟩
  late h := absurd rfl h
  handled := .slnil
  all _ _ := rfl
  acks := ackInv_new S.cfg
  loss := ⟨[], .nil, .nil⟩

namespace Hears

variable {s : Sys rq} {heard : List Frame} {taken ms : List Feedback} {a : Act Frame}
  {e : Option Sealed} {snd : SendState rq} {i o : Pipe Frame}

theorem replied_of_keeps (hi : Hears cfg s heard taken ms) {pc : SendPc} (hk : s.snd.pc.Keeps pc)
    (hr : s.snd.reader = .none → snd.reader = .none) :
    ∀ fs, pc.replies = some fs → heard = fs ∧ snd.reader = .none := by
  intro fs hfs
  rcases hk with hk | hk
  · rw [hk] at hfs
    cases hfs
  · obtain ⟨hheard, hnone⟩ := hi.replied fs (by rw [← hk, hfs])
    exact ⟨hheard, hr hnone⟩

theorem send (hi : Hears cfg s heard taken ms) (hidle : IdleInv cfg s.snd)
    (h : SendStep enc cfg s.snd a e snd) (hio : Io a s.toSend s.toRecv i o) (table : List Sealed) :
    ∃ heard taken ms,
      Hears cfg { s with snd, toSend := i, toRecv := o, table } heard taken ms := by
  have hwire := hi.wire.read hio
  have hall : snd.pc.alive = true → ¬ snd.v.Idle cfg → ms = taken := fun ha hn =>
    hi.all (h.alive ha) fun hv => hn (h.idle hidle hv)
  cases h.hears with
  | @reply f fs ha hchan hv hfs hpc hr =>
    subst ha
    obtain ⟨rfl, hnone⟩ := hi.replied fs hfs
    obtain ⟨hempty, rfl⟩ := hi.early hnone
    refine ⟨heard ++ [f], [], ms, hwire, ?_, fun _ => ⟨by rw [hchan, hempty], rfl⟩, fun hne => ?_,
      hi.handled, hall, hv ▸ hi.acks, hv ▸ hi.loss⟩
    · intro fs' hfs'
      rcases hpc with hpc | ⟨hpc, hr⟩
      · rw [hpc] at hfs'
        cases hfs'
      · rw [hpc] at hfs'
        exact ⟨Option.some.inj hfs', by rw [hr, hnone]⟩
    · rcases hr with hr | ⟨-, p, hp⟩
      · exact absurd (hr.trans hnone) hne
      · exact ⟨p, [], [], hp, by rw [hchan, hempty]; rfl, .inl rfl⟩
  | @heard f ha hr hr' hchan hv hpc =>
    subst ha
    have hne : s.snd.reader ≠ .none := by simp [hr]
    obtain ⟨port, rest, tail, rfl, hrest, htail⟩ := hi.late hne
    have htail : tail = [] := htail.resolve_right fun ht => ht.2.1 hr
    refine ⟨_, taken, ms, hwire, ?_, fun hn => absurd hn hr', fun _ => ?_, hi.handled, hall,
      hv ▸ hi.acks, hv ▸ hi.loss⟩
    · intro fs hfs
      exact absurd (hi.replied fs (by rw [← hpc, hfs])).2 hne
    · refine ⟨port, rest ++ [f], [], rfl, ?_, .inl rfl⟩
      rw [htail, List.append_nil] at hrest
      rw [hchan, ← List.append_assoc, hrest, List.map_append, List.append_nil]
      rfl
  | closed ha hr hr' hchan hv hpc =>
    subst ha
    have hne : s.snd.reader ≠ .none := by simp [hr]
    obtain ⟨port, rest, tail, rfl, hrest, htail⟩ := hi.late hne
    have htail : tail = [] := htail.resolve_right fun ht => ht.2.1 hr
    rw [htail, List.append_nil] at hrest
    simp only [Act.got, List.append_nil] at hwire
    refine ⟨_, taken, ms, hwire, ?_, fun hn => ?_, fun _ => ?_, hi.handled, hall,
      hv ▸ hi.acks, hv ▸ hi.loss⟩
    · intro fs hfs
      exact absurd (hi.replied fs (by rw [← hpc, hfs])).2 hne
    · rw [hr'] at hn
      cases hn
    · cases hio with
      | readFail hq hc =>
        refine ⟨port, rest, [.closed none], rfl, ?_, .inr ⟨rfl, by simp [hr'], hc, hq⟩⟩
        rw [hchan, ← List.append_assoc, hrest]
  | @handled m ha hchan hr hv hpc =>
    subst ha
    cases hio
    simp only [Act.got, List.append_nil] at hwire
    refine ⟨heard, taken ++ [m], ms ++ [m], hwire, ?_, ?_, ?_, hi.handled.append (.refl _),
      fun ha hn => by rw [hall ha hn], hi.acks.handled hv, hi.loss.handled hv⟩
    · exact hi.replied_of_keeps (.inr (by rw [hpc])) fun hn => hr.trans hn
    · intro hn
      have hempty := (hi.early (hr.symm.trans hn)).1
      rw [hchan] at hempty
      cases hempty
    · intro hne
      obtain ⟨port, rest, tail, hheard, hrest, htail⟩ := hi.late (hr ▸ hne)
      rw [hchan, List.append_cons] at hrest
      exact ⟨port, rest, tail, hheard, hrest, by rwa [hr]⟩
  | @ignored m ha hchan hr hv hpc hkeeps =>
    subst ha
    cases hio
    simp only [Act.got, List.append_nil] at hwire
    refine ⟨heard, taken ++ [m], ms, hwire, ?_, ?_, ?_,
      hi.handled.trans (List.sublist_append_left _ _), ?_, hv ▸ hi.acks, hv ▸ hi.loss⟩
    · exact hi.replied_of_keeps hkeeps fun hn => hr.trans hn
    · intro hn
      have hempty := (hi.early (hr.symm.trans hn)).1
      rw [hchan] at hempty
      cases hempty
    · intro hne
      obtain ⟨port, rest, tail, hheard, hrest, htail⟩ := hi.late (hr ▸ hne)
      rw [hchan, List.append_cons] at hrest
      exact ⟨port, rest, tail, hheard, hrest, by rwa [hr]⟩
    · -- The wait for Done takes a message only with nothing left to spray.
      intro ha hn
      rcases hpc with hpc | hpc
      · cases ha.symm.trans hpc
      · exact absurd (hv ▸ hidle.await hpc) hn
  | other ha hchan hr hloss hacked hcount hkeeps =>
    obtain rfl := hio.in_eq ha
    rw [ha, List.append_nil] at hwire
    refine ⟨heard, taken, ms, hwire, ?_, ?_, ?_, hi.handled, hall, hi.acks.of_eq hacked hcount,
      hloss ▸ hi.loss⟩
    · refine hi.replied_of_keeps hkeeps fun hn => ?_
      rcases hr with hr | ⟨hr, -⟩
      · exact hr.trans hn
      · cases hn.symm.trans hr
    · intro hn
      rw [hchan]
      rcases hr with hr | ⟨-, hr⟩
      · exact hi.early (hr.symm.trans hn)
      · cases hr.symm.trans hn
    · intro hne
      have hne' : s.snd.reader ≠ .none := by
        rcases hr with hr | ⟨hr, -⟩
        · exact hr ▸ hne
        · simp [hr]
      obtain ⟨port, rest, tail, hheard, hrest, htail⟩ := hi.late hne'
      refine ⟨port, rest, tail, hheard, by rw [hchan, hrest], ?_⟩
      rcases htail with htail | ⟨htail, hrun, hcut, hq⟩
      · exact .inl htail
      · refine .inr ⟨htail, ?_, hcut, hq⟩
        rcases hr with hr | ⟨-, hr⟩
        · exact hr ▸ hrun
        · simp [hr]

theorem recv {sha : Sha256} {plane : RxPlane} {dec : Decrypt} {rcv : RecvState rq}
    (hi : Hears cfg s heard taken ms) (h : RecvStep sha plane dec s.rcv a rcv)
    (hio : Io a s.toRecv s.toSend i o) :
    Hears cfg { s with rcv, toRecv := i, toSend := o } heard taken ms where
  wire := by
    have hwire := hi.wire.write hio
    rcases h.wrote with ⟨f, ok, rfl, hw⟩ | ⟨hne, hw⟩
    · rw [hw]
      exact hwire
    · rw [hw]
      cases a with
      | write f ok => exact absurd rfl (hne f ok)
      | tau | read | readFail => simpa only [Act.put, List.append_nil] using hwire
  replied := hi.replied
  early := hi.early
  late hne := by
    obtain ⟨port, rest, tail, hheard, hrest, htail⟩ := hi.late hne
    refine ⟨port, rest, tail, hheard, hrest, htail.imp_right fun hx => ?_⟩
    obtain ⟨ht, hrun, hcut, hq⟩ := hx
    obtain ⟨hcut', hq'⟩ := hio.out_of_cut hcut
    exact ⟨ht, hrun, hcut', hq'.trans hq⟩
  handled := hi.handled
  all := hi.all
  acks := hi.acks
  loss := hi.loss

theorem cutToSend (hi : Hears cfg s heard taken ms) (n : Nat) :
    Hears cfg { s with toSend := s.toSend.cutAt n } heard taken ms where
  wire := hi.wire.cutAt n
  replied := hi.replied
  early := hi.early
  late hne := by
    obtain ⟨port, rest, tail, hheard, hrest, htail⟩ := hi.late hne
    refine ⟨port, rest, tail, hheard, hrest, htail.imp_right fun hx => ?_⟩
    obtain ⟨ht, hrun, -, hq⟩ := hx
    exact ⟨ht, hrun, rfl, by simp [Pipe.cutAt, hq]⟩
  handled := hi.handled
  all := hi.all
  acks := hi.acks
  loss := hi.loss

end Hears

namespace Session

theorem Reachable.hears {S : Session} {s : Sys rq} (h : S.Reachable s) :
    ∃ heard taken ms, Hears S.cfg s heard taken ms := by
  have key : IdleInv S.cfg s.snd ∧ ∃ heard taken ms, Hears S.cfg s heard taken ms := by
    refine Runs.Reachable.invariant h
      (fun s => IdleInv S.cfg s.snd ∧ ∃ heard taken ms, Hears S.cfg s heard taken ms)
      (fun s he => ?_) fun s t hi hst => ?_
    · subst he
      exact ⟨idleInv_init S.cfg, [], [], [], hears_start rq S⟩
    · obtain ⟨hidle, heard, taken, ms, hh⟩ := hi
      cases hst with
      | send h hio => exact ⟨h.idleInv hidle, hh.send hidle h hio _⟩
      | recv h hio => exact ⟨hidle, _, _, _, hh.recv h hio⟩
      | cutToRecv n =>
        exact ⟨hidle, heard, taken, ms, hh.wire, hh.replied, hh.early, hh.late, hh.handled,
          hh.all, hh.acks, hh.loss⟩
      | cutToSend n => exact ⟨hidle, _, _, _, hh.cutToSend n⟩
  exact key.2

/-! ## A run

The tiny file: one packet arrives, a tick reports it, and the sender drains the
report. -/

theorem twofold_onFeedback {v : Spray .twofold} (hloss : v.loss = .new)
    (hctrl : v.ctrl = some (.new tiny.cfg.seg tiny.cfg.maxRateMbps)) :
    ∃ loss ctrl, v.onFeedback (.progress 1 (some 1) 5) = .ok (.go { v with loss, ctrl }) ∧
      loss.last = some (1, 1) := by
  obtain ⟨loss, hupdate⟩ := v.loss.update_ok 1 1
  have hlast : loss.last = some (1, 1) := by
    have he := LossEstimator.update_eq v.loss (1, 1)
    rw [hupdate, hloss] at he
    rw [Except.ok.inj he]
    rfl
  obtain ⟨c, hreport⟩ : ∃ c, RateController.onReport (.new tiny.cfg.seg tiny.cfg.maxRateMbps) 1
      (some 1) v.bytesSent 5 = .ok (none, c) := ⟨_, rfl⟩
  refine ⟨loss, some c, ?_, hlast⟩
  simp only [Spray.onFeedback, Option.getD_some, hupdate, hctrl, hreport, Checked.ok_bind]
  rfl

theorem twofold_heard : ∃ s : Sys .twofold, tiny.Reachable s ∧
    s.snd.v.loss.last = some (1, 1) := by
  obtain ⟨c₁, -, hc₁, -, ⟨hio, hacks, hdec, hticks, hrep⟩, -⟩ := twofold_delivered
  obtain ⟨v, turns, hloss, hctrl, -, -, h⟩ := twofold_sprayed
  obtain ⟨loss, ctrl, hgo, hlast⟩ := twofold_onFeedback hloss hctrl
  have h₁ := h.recv (.batch rfl rfl (by decide)) .tau
  have h₂ := h₁.recv (.datagram rfl rfl _ _ hc₁) .tau
  have h₃ : tiny.Reachable (twofoldSys v turns .acks c₁) := h₂.recv (.batchEnd rfl rfl hio) .tau
  have h₄ : tiny.Reachable (twofoldSys v turns .collect c₁) := h₃.recv (.acked rfl rfl hacks) .tau
  have hd : c₁.decoded < tiny.cfg.layout.numBlocks := by rw [hdec]; decide
  have hf := Collect.onTick_eq_ok.mpr ⟨hrep, 1, by rw [hticks]; rfl, rfl⟩
  have h₅ := h₄.recv (a := .write _ true) (.tick rfl rfl hd 5 hf) (.write rfl)
  have h₆ := h₅.send (.readerRead rfl) (.read rfl)
  have h₇ := h₆.send (.drainGo rfl rfl hgo) .tau
  exact ⟨_, h₇, hlast⟩

/-! ## The results -/

/-- **Feedback arrives once and in order.** In every state of every interleaving,
on either plane: what the sender has read and what is on its way to it are, in
order, what the receiver wrote, and all of it if the stream was not cut. After the
two replies of the handshake every frame is one message of the channel; only the
end of a cut stream adds another. `drain_feedback` goes on after messages taken
off the channel in order, all of them as long as a block is unacked and the
receiver there. The acks and the loss estimate are those of these messages. So
with nothing on its way the sender has acked what the receiver wrote acks for. -/
theorem feedback_exactly_once (S : Session) {s : Sys rq} (h : S.Reachable s) :
    ∃ heard taken ms,
      (heard ++ s.toSend.queue <+: s.rcv.wrote ∧
        (s.toSend.cut = false → heard ++ s.toSend.queue = s.rcv.wrote)) ∧
      (s.snd.reader ≠ .none → ∃ port rest tail,
        heard = .helloAck port :: .manifestAck :: rest ∧
        taken ++ s.snd.chan = rest.map Frame.feedback ++ tail ∧
        (tail = [] ∨ tail = [.closed none] ∧ s.toSend.cut = true ∧ s.toSend.queue = [])) ∧
      ms.Sublist taken ∧ (s.snd.pc.alive = true → ¬ s.snd.v.Idle S.cfg → ms = taken) ∧
      (∀ b : UInt32, s.snd.v.acked[b.toNat]? = some true ↔
        b < S.cfg.layout.numBlocks ∧ .decoded b ∈ ms) ∧
      Estimates s.snd.v.loss ms ∧
      (s.snd.reader ≠ .none → s.snd.pc.alive = true → ¬ s.snd.v.Idle S.cfg →
        s.toSend = ⟨[], false⟩ → s.snd.chan = [] → ∀ b : UInt32,
          s.snd.v.acked[b.toNat]? = some true ↔
            b < S.cfg.layout.numBlocks ∧ .blockDecoded b ∈ s.rcv.wrote) := by
  obtain ⟨heard, taken, ms, hh⟩ := h.hears
  refine ⟨heard, taken, ms, ⟨hh.wire.order, hh.wire.whole⟩, fun hr => ?_, hh.handled, hh.all,
    hh.acks.acked, hh.loss, fun hr halive hidle hsend hchan b => ?_⟩
  · obtain ⟨port, rest, tail, hheard, hrest, htail⟩ := hh.late hr
    exact ⟨port, rest, tail, hheard, hrest, htail.imp_right fun ht => ⟨ht.1, ht.2.2⟩⟩
  · obtain ⟨port, rest, tail, rfl, hrest, htail⟩ := hh.late hr
    have hwrote := hh.wire.whole (by rw [hsend])
    simp only [hsend, List.append_nil] at hwrote
    rcases htail with rfl | ⟨-, -, hcut, -⟩
    · rw [hh.acks.acked, hh.all halive hidle, ← hwrote]
      rw [hchan, List.append_nil, List.append_nil] at hrest
      rw [hrest]
      refine and_congr_right fun _ => ?_
      simp [Frame.feedback_eq_decoded]
    · rw [hsend] at hcut
      cases hcut

/-- The report of the tiny file's first packet went all the way. -/
theorem feedback_once_twofold : ∃ (s : Sys .twofold) (heard : List Frame) (ms : List Feedback),
    tiny.Reachable s ∧ s.snd.v.loss.last = some (1, 1) ∧ heard ++ s.toSend.queue <+: s.rcv.wrote ∧
      Estimates s.snd.v.loss ms := by
  obtain ⟨s, h, hlast⟩ := twofold_heard
  obtain ⟨heard, taken, ms, hwire, -, -, -, -, hest, -⟩ := feedback_exactly_once tiny h
  exact ⟨s, heard, ms, h, hlast, hwire.1, hest⟩

/-! ## The loss estimate of a sealed session -/

end Session

/-- At these counts `m` of the packets numbered so far were missing: at the start
of the transfer, or at a report. -/
def MissingAt (n : UInt64) (rs : List Report) (u : Counts) (m : Nat) : Prop :=
  u = (0, 0) ∧ m = 0 ∨ ∃ r ∈ rs, r.Exact n u.1 u.2 ∧ m = (r.missing u.2).card

theorem MissingAt.add {n : UInt64} {rs : List Report} {u : Counts} {m : Nat}
    (h : MissingAt n rs u m) : u.1.toNat + m = u.2.toNat := by
  rcases h with ⟨rfl, rfl⟩ | ⟨r, -, hr, rfl⟩
  · rfl
  · obtain ⟨hcard, hle⟩ := hr.missing_card
    have := UInt64.le_iff_toNat_le.mp hle
    omega

/-- What the loss estimate uses of a frame. -/
def Frame.report (f : Frame) : Option (UInt64 × Option UInt64) := f.feedback.report

theorem Frame.report_of_not_progress {f : Frame} (h : f.isProgress = false) : f.report = none := by
  cases f with
  | progress => cases h
  | _ => rfl

theorem Report.Exact.report {n pkts span : UInt64} {r : Report} (h : r.Exact n pkts span) :
    r.frame.report = some (pkts, some span) := by
  obtain ⟨tMs, hf⟩ := h.frame
  rw [hf]
  exact if_pos h.pos

theorem filterMap_report (fs : List Frame) :
    fs.filterMap (·.report) = (fs.filter Frame.isProgress).filterMap (·.report) := by
  induction fs with
  | nil => rfl
  | cons f fs ih =>
    cases hf : f.isProgress with
    | true => rw [List.filter_cons_of_pos hf, List.filterMap_cons, List.filterMap_cons, ih]
    | false =>
      rw [List.filter_cons_of_neg (by simp [hf]),
        List.filterMap_cons_none (Frame.report_of_not_progress hf), ih]

/-- What the messages handled report, the receiver reported, in the same order. -/
theorem Hears.sublist_report {s : Sys rq} {heard : List Frame} {taken ms : List Feedback}
    (hh : Hears cfg s heard taken ms) :
    (ms.filterMap (·.report)).Sublist (s.rcv.wrote.filterMap (·.report)) := by
  by_cases hr : s.snd.reader = .none
  · have hnil : ms = [] := List.sublist_nil.mp ((hh.early hr).2 ▸ hh.handled)
    rw [hnil]
    exact List.nil_sublist _
  · obtain ⟨port, rest, tail, rfl, hrest, htail⟩ := hh.late hr
    have htail : tail.filterMap (·.report) = [] := by
      rcases htail with rfl | ⟨rfl, -⟩ <;> rfl
    have hms : ms.Sublist (rest.map Frame.feedback ++ tail) :=
      hrest ▸ hh.handled.trans (List.sublist_append_left _ _)
    have hwrote : rest.Sublist s.rcv.wrote :=
      (((List.sublist_append_left rest _).cons _).cons _).trans hh.wire.order.sublist
    have he : (rest.map Frame.feedback ++ tail).filterMap (·.report) =
        rest.filterMap (·.report) := by
      rw [List.filterMap_append, htail, List.append_nil, List.filterMap_map]
      rfl
    exact (he ▸ hms.filterMap _).trans (hwrote.filterMap _)

theorem forall₂_exact {n : UInt64} {rs : List Report}
    (hrs : ∀ r ∈ rs, ∃ pkts span, r.Exact n pkts span) {ls : List LossUpdate}
    (h : List.Forall₂ LossUpdate.Of ls (rs.filterMap fun r => r.frame.report)) :
    List.Forall₂ (fun l r => r.Exact n l.counts.1 l.counts.2) ls rs := by
  induction rs generalizing ls with
  | nil =>
    cases h
    exact .nil
  | cons r rs ih =>
    rw [List.forall_mem_cons] at hrs
    obtain ⟨⟨pkts, span, hr⟩, hrs⟩ := hrs
    have he : (r :: rs).filterMap (fun r => r.frame.report) =
        (pkts, some span) :: rs.filterMap fun r => r.frame.report :=
      List.filterMap_cons_some hr.report
    rw [he] at h
    cases h with
    | @cons l _ ls _ hl h =>
      obtain ⟨hpkts, hspan⟩ := hl
      refine .cons ?_ (ih hrs h)
      rwa [hpkts, hspan span rfl]

theorem exists_exact_of_mem {n : UInt64} {rs : List Report} {ls : List LossUpdate}
    (h : List.Forall₂ (fun l r => r.Exact n l.counts.1 l.counts.2) ls rs) {l : LossUpdate}
    (hl : l ∈ ls) : ∃ r ∈ rs, r.Exact n l.counts.1 l.counts.2 := by
  induction h with
  | nil => cases hl
  | @cons l' r ls rs hr _ ih =>
    rcases List.mem_cons.mp hl with rfl | hl
    · exact ⟨r, List.mem_cons_self, hr⟩
    · obtain ⟨r', hr', hex⟩ := ih hl
      exact ⟨r', List.mem_cons_of_mem _ hr', hex⟩

/-- Exact reports, each about more than those before it, do not go back. -/
theorem nonDecreasing_of_exact {n : UInt64} {rs : List Report} {ls : List LossUpdate}
    (h : List.Forall₂ (fun l r => r.Exact n l.counts.1 l.counts.2) ls rs)
    (hrs : rs.Pairwise fun r r' => r.opened <+: r'.opened) :
    NonDecreasing (ls.map (·.counts)) := by
  induction h with
  | nil => exact .nil
  | @cons l r ls rs hr h ih =>
    rw [List.pairwise_cons] at hrs
    refine List.pairwise_cons.mpr ⟨fun u hu => ?_, ih hrs.2⟩
    obtain ⟨l', hl', rfl⟩ := List.mem_map.mp hu
    obtain ⟨r', hr', hex⟩ := exists_exact_of_mem h hl'
    exact hr.le hex (hrs.1 r' hr')

theorem snd_mem_of_intervals {ls : List LossUpdate} {i : Counts × Counts} (hi : i ∈ intervals ls) :
    i.2 ∈ ls.map (·.counts) := by
  obtain ⟨l, hl, he⟩ := List.mem_filterMap.mp hi
  rw [(LossEstimator.interval_eq_some he).1]
  exact List.mem_map_of_mem hl

namespace Session

/-- **The loss estimate is about the wire.** In every state of every interleaving
of a sealed session under the ideal AEAD, whatever the UDP path does: the sender's
loss estimate is that of updates with reports of the receiver, each used once at
most and in order; the intervals behind its samples follow one another from the
start of the transfer to the snapshot kept, never backwards; and over each of them
the packets sent less those received are the change in the packets missing at the
receiver. -/
theorem loss_samples_exact (S : Session) (hp : S.cfg.plane = .sealed .new)
    (ha : S.aead = decryptTable) {s : Sys rq} (h : S.Reachable s) :
    ∃ (rs : List Report) (ls : List LossUpdate), rs.Sublist s.rcv.reports ∧
      Runs.Trace Updated .new ls s.snd.v.loss ∧
      List.Forall₂ (fun l r => r.Exact s.snd.v.packetsSent l.counts.1 l.counts.2) ls rs ∧
      Consecutive (0, 0) (intervals ls) s.snd.v.loss.snapshot ∧
      (∀ i ∈ intervals ls, i.1.1 ≤ i.2.1 ∧ i.1.2 ≤ i.2.2 ∧ ∃ m m',
        MissingAt s.snd.v.packetsSent rs i.1 m ∧ MissingAt s.snd.v.packetsSent rs i.2 m' ∧
        ((i.2.2.toNat - i.1.2.toNat : Nat) : ℤ) - (i.2.1.toNat - i.1.1.toNat : Nat) = m' - m) ∧
      ∃ m, MissingAt s.snd.v.packetsSent rs s.snd.v.loss.snapshot m := by
  have hreports := (h.sealedInv hp ha).reports
  obtain ⟨heard, taken, ms, hh⟩ := h.hears
  obtain ⟨ls, htrace, hof⟩ := hh.loss
  -- The reports used.
  have hsub := hh.sublist_report
  rw [filterMap_report, hreports.frames, List.filterMap_map] at hsub
  obtain ⟨rs, hrs, he⟩ := List.sublist_filterMap_iff.mp hsub
  rw [he] at hof
  have hexact := forall₂_exact (fun r hr => hreports.exact r (hrs.subset hr)) hof
  have hmono := nonDecreasing_of_exact hexact (hreports.order.sublist hrs)
  have hmissing : ∀ u ∈ ls.map (·.counts), ∃ m, MissingAt s.snd.v.packetsSent rs u m := by
    intro u hu
    obtain ⟨l, hl, rfl⟩ := List.mem_map.mp hu
    obtain ⟨r, hr, hex⟩ := exists_exact_of_mem hexact hl
    exact ⟨_, .inr ⟨r, hr, hex, rfl⟩⟩
  have hinv := lossInv_of_trace htrace
  obtain ⟨start, hstart, hchain⟩ := hinv.chain
  -- No report is of nothing sent, so the intervals begin with the transfer.
  obtain rfl : start = (0, 0) := by
    rcases hstart with hstart | ⟨hzero, hhead⟩
    · exact hstart
    · obtain ⟨l, hl, rfl⟩ := List.mem_map.mp (List.mem_of_mem_head? hhead)
      obtain ⟨r, hr, hex⟩ := exists_exact_of_mem hexact hl
      obtain ⟨d, -, htop⟩ := hex.top
      rw [hzero] at htop
      cases htop
  refine ⟨rs, ls, hrs, htrace, hexact, hchain, fun i hi => ?_, ?_⟩
  · obtain ⟨hpkts, hspan⟩ := hinv.forward hmono i hi
    obtain ⟨m', hm'⟩ := hmissing i.2 (snd_mem_of_intervals hi)
    obtain ⟨m, hm⟩ : ∃ m, MissingAt s.snd.v.packetsSent rs i.1 m := by
      rcases hchain.fst_eq i hi with he | ⟨j, hj, he⟩
      · exact ⟨0, .inl ⟨he, rfl⟩⟩
      · exact he ▸ hmissing j.2 (snd_mem_of_intervals hj)
    refine ⟨hpkts, hspan, m, m', hm, hm', ?_⟩
    have := hm.add
    have := hm'.add
    have := UInt64.le_iff_toNat_le.mp hpkts
    have := UInt64.le_iff_toNat_le.mp hspan
    omega
  · unfold LossEstimator.snapshot
    cases hlast : s.snd.v.loss.last with
    | none => exact ⟨0, .inl ⟨rfl, rfl⟩⟩
    | some u => exact hmissing u (hinv.kept u hlast)

/-- The tiny file's first report: one packet sent and received, and none missing. -/
theorem loss_exact_twofold : ∃ (s : Sys .twofold) (rs : List Report), tiny.Reachable s ∧
    s.snd.v.loss.last = some (1, 1) ∧ rs.Sublist s.rcv.reports ∧
      MissingAt s.snd.v.packetsSent rs (1, 1) 0 := by
  obtain ⟨s, h, hlast⟩ := twofold_heard
  obtain ⟨rs, ls, hrs, -, -, -, -, m, hm⟩ := loss_samples_exact tiny rfl rfl h
  rw [LossEstimator.snapshot, hlast] at hm
  have hadd := hm.add
  obtain rfl : m = 0 := by
    change 1 + m = 1 at hadd
    omega
  exact ⟨s, rs, h, hlast, hrs, hm⟩

end Session

end AtpExperiment
