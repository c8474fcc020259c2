/-
The sender and what it hears: every frame it writes, every message in the
channel, every ack it records and every return of Ok, traced to a frame it
read. `RoundInv` is about the rounds: a block is left out of one only when it
was acked, or when the receiver is gone.
-/
import AtpExperiment.SendFacts

namespace AtpExperiment

open Octets Aead Duplex

variable {rq : Raptorq} {enc : Encrypt} {cfg : SendCfg}

/-! ## Feedback -/

/-- The frame a message was made from. -/
def Feedback.source : Feedback → Option Frame
  | .decoded index => some (.blockDecoded index)
  | .progress pkts span tMs => some (.progress pkts span tMs)
  | .done ok error => some (.done ok error)
  | .closed _ => none

theorem readerTask_source {f g : Frame} (h : (readerTask f).1.source = some g) : g = f := by
  cases f <;> simp only [readerTask, Feedback.source, reduceCtorEq, Option.some.injEq] at h <;>
    exact h.symm

theorem SendStep.writes {s s' : SendState rq} {f : Frame} {ok : Bool} {e : Option Sealed}
    (h : SendStep enc cfg s (.write f ok) e s') : f = cfg.hello ∨ f = cfg.manifest := by
  cases h with
  | hello => exact .inl rfl
  | manifest => exact .inr rfl

/-- A message in the channel was there, or was made from the frame read. -/
theorem SendStep.chan {s s' : SendState rq} {a : Act Frame} {e : Option Sealed}
    (h : SendStep enc cfg s a e s') {m : Feedback} {f : Frame} (hm : m ∈ s'.chan)
    (hf : m.source = some f) : m ∈ s.chan ∨ a = .read f := by
  cases h with
  | readerRead =>
    rcases List.mem_append.mp hm with hm | hm
    · exact .inl hm
    · rw [List.mem_singleton.mp hm] at hf
      rw [readerTask_source hf]
      exact .inr rfl
  | readerFail =>
    rcases List.mem_append.mp hm with hm | hm
    · exact .inl hm
    · rw [List.mem_singleton.mp hm] at hf
      cases hf
  | drainGo _ hc | drainDone _ hc | drainErr _ hc | drainPanic _ hc | awaitDone _ hc
  | awaitOther _ hc => exact .inl (by rw [hc]; exact List.mem_cons_of_mem _ hm)
  | _ => exact .inl hm

theorem Spray.onFeedback_done {v : Spray rq} {m : Feedback} {ok : Bool} {error : Option String}
    (h : v.onFeedback m = .ok (.done ok error)) : m = .done ok error := by
  cases m with
  | done ok' error' => cases h; rfl
  | closed got => cases h
  | decoded i =>
    simp only [onFeedback] at h
    split at h
    · simp only [Checked.bind_eq_ok, Checked.pure_eq_ok, reduceCtorEq, and_false, exists_false] at h
    · cases h
  | progress pkts span tMs =>
    simp only [onFeedback] at h
    split at h
    · simp only [Checked.bind_eq_ok] at h
      obtain ⟨loss, -, h⟩ := h
      split at h
      · cases h
      · simp only [Checked.bind_eq_ok, Checked.pure_eq_ok, reduceCtorEq, and_false,
          exists_false] at h
    · cases h

theorem finish_ok {s : SendState rq} {ok : Bool} {error : Option String}
    (h : (s.finish ok error).pc = .returned (.ok ())) : ok = true := by
  cases ok with
  | true => rfl
  | false => simp [SendState.finish] at h

theorem SendStep.returned_ok {s s' : SendState rq} {a : Act Frame} {e : Option Sealed}
    (h : SendStep enc cfg s a e s') (hr : s'.pc = .returned (.ok ())) :
    s.pc = .returned (.ok ()) ∨ ∃ error, .done true error ∈ s.chan := by
  cases h with
  | readerRead | readerFail | readerReturn => exact .inl hr
  | drainDone _ hc hv =>
    rw [Spray.onFeedback_done hv, finish_ok hr] at hc
    exact .inr ⟨_, by rw [hc]; exact List.mem_cons_self⟩
  | awaitDone _ hc =>
    rw [finish_ok hr] at hc
    exact .inr ⟨_, by rw [hc]; exact List.mem_cons_self⟩
  | drainGo h => rw [show s.pc = _ from hr] at h; cases h
  | @drainEmpty k =>
    rcases SendState.resume_cases cfg s.v k with hk | ⟨_, -, hk⟩ | hk | hk <;> rw [hk] at hr <;>
      cases hr
  | queued => simp only at hr; split at hr <;> cases hr
  | @packetsEnd _ todo =>
    rcases SendState.endTurn_cases s.v todo with hk | ⟨-, hk⟩ | hk <;> rw [hk] at hr <;> cases hr
  | flush _ _ gone | flushTail _ _ gone => cases gone <;> cases hr
  | @hello ok | @manifest _ ok => cases ok <;> cases hr
  | _ => cases hr

/-- An ack is recorded from a Decoded message. -/
theorem SendStep.acked {s s' : SendState rq} {a : Act Frame} {e : Option Sealed}
    (h : SendStep enc cfg s a e s') {b : UInt32} (hb : s'.v.acked[b.toNat]? = some true) :
    s.v.acked[b.toNat]? = some true ∨ .decoded b ∈ s.chan := by
  rcases h.spray.feedback_or with ⟨m, hm, hv⟩ | ⟨hacked, -⟩
  · rcases Spray.onFeedback_acked hv with hacked | ⟨i, rfl, hacked⟩
    · exact .inl (by rwa [hacked] at hb)
    · by_cases hi : i = b
      · exact .inr (hi ▸ hm)
      · rw [hacked, List.getElem?_set_ne (fun he => hi (UInt32.toNat.inj he))] at hb
        exact .inl hb
  · exact .inl (by rwa [hacked] at hb)

theorem SendStep.acked_mono {s s' : SendState rq} {a : Act Frame} {e : Option Sealed}
    (h : SendStep enc cfg s a e s') : s'.v.acked.length = s.v.acked.length ∧
      ∀ b : UInt32, s.v.acked[b.toNat]? = some true → s'.v.acked[b.toNat]? = some true := by
  rcases h.spray.feedback_or with ⟨m, hm, hv⟩ | ⟨hacked, -⟩
  · rcases Spray.onFeedback_acked hv with hacked | ⟨i, -, hacked⟩ <;> rw [hacked]
    · exact ⟨rfl, fun b hb => hb⟩
    · refine ⟨List.length_set, fun b hb => ?_⟩
      rw [List.getElem?_set]
      split
      · next he => simp [he, (List.getElem?_eq_some_iff.mp hb).1]
      · exact hb
  · exact ⟨by rw [hacked], fun b hb => by rw [hacked, hb]⟩

/-! ## Rounds -/

/-- The blocks a round still has to come to. -/
def SendPc.todo : SendPc → Option (List UInt32)
  | .blocks todo | .packets _ _ todo | .flush _ _ todo | .flushTail todo | .drain (.turn todo) =>
    some todo
  | _ => none

/-- Block `b` had its turn in the round under way. -/
def SendState.Turned (s : SendState rq) (b : UInt32) : Prop :=
  ∃ t ∈ s.turns, t.round = s.v.round ∧ t.block = b

theorem SendState.turned_of_startTurn {s s' : SendState rq} {b : UInt32}
    {pkts : List EncodingPacket} (hv : s.v.startTurn cfg b = .ok (pkts, s'.v))
    (ht : s'.turns = s.turns ++ [⟨s.v.round, b, pkts⟩]) : s'.Turned b := by
  obtain ⟨_, _, hv'⟩ := Spray.startTurn_frame hv
  refine ⟨⟨s.v.round, b, pkts⟩, ?_, ?_, rfl⟩
  · rw [ht]
    exact List.mem_append_right _ (List.mem_singleton.mpr rfl)
  · rw [hv']

/-- Every block is still to come, had its turn, or was acked. -/
def SendState.Covered (cfg : SendCfg) (s : SendState rq) (todo : List UInt32) : Prop :=
  ∀ b, b < cfg.layout.numBlocks → b ∈ todo ∨ s.Turned b ∨ s.v.acked[b.toNat]? = some true

/-- The invariant of the rounds. -/
structure RoundInv (cfg : SendCfg) (s : SendState rq) : Prop where
  size : s.v.acked.length = cfg.layout.numBlocks.toNat
  todo : ∀ todo, s.pc.todo = some todo → s.Covered cfg todo
  ended : s.pc = .roundEnd → s.v.receiverGone = true ∨ s.Covered cfg []

theorem roundInv_init (cfg : SendCfg) : RoundInv cfg (SendState.init rq cfg) where
  size := List.length_replicate
  todo todo h := by cases h
  ended h := by cases h

theorem SendStep.round {s s' : SendState rq} {a : Act Frame} {e : Option Sealed}
    (h : SendStep enc cfg s a e s') : s'.v.round = s.v.round ∨
      s'.pc = .settle ∧ Checked.addU32 s.v.round 1 = .ok s'.v.round := by
  cases h with
  | roundEnd _ hr => exact .inr ⟨rfl, hr⟩
  | drainGo _ _ hv =>
    obtain ⟨_, _, _, _, _, rfl⟩ := Spray.onFeedback_frame hv
    exact .inl rfl
  | turn _ _ hv =>
    obtain ⟨_, _, rfl⟩ := Spray.startTurn_frame hv
    exact .inl rfl
  | dropped _ hv | queued _ hv | encodeFail _ hv =>
    obtain ⟨_, _, _, _, _, _, rfl⟩ := Spray.sendPacket_frame hv
    exact .inl rfl
  | flush _ _ _ hg hv | flushTail _ _ _ hg hv =>
    obtain ⟨_, -, rfl⟩ := Spray.flushed_ok hg hv
    exact .inl rfl
  | _ => exact .inl rfl

theorem SendStep.turns {s s' : SendState rq} {a : Act Frame} {e : Option Sealed}
    (h : SendStep enc cfg s a e s') {t : Turn} (ht : t ∈ s.turns) : t ∈ s'.turns := by
  cases h with
  | turn => exact List.mem_append_left _ ht
  | _ => exact ht

/-- Within a round, what is covered stays covered. -/
theorem SendStep.covered {s s' : SendState rq} {a : Act Frame} {e : Option Sealed}
    (h : SendStep enc cfg s a e s') (hpc : s'.pc ≠ .settle) {todo : List UInt32}
    (hc : s.Covered cfg todo) : s'.Covered cfg todo := by
  intro b hb
  have hround := h.round.resolve_right fun hx => hpc hx.1
  rcases hc b hb with hmem | ⟨t, ht, hr, hbt⟩ | hack
  · exact .inl hmem
  · exact .inr (.inl ⟨t, h.turns ht, hr.trans hround.symm, hbt⟩)
  · exact .inr (.inr (h.acked_mono.2 b hack))

theorem Spray.mem_pending {v : Spray rq} (hsize : v.acked.length = cfg.layout.numBlocks.toNat)
    {b : UInt32} (hb : b < cfg.layout.numBlocks) :
    b ∈ v.pending cfg ∨ v.acked[b.toNat]? = some true := by
  have hlt : b.toNat < v.acked.length := by rw [hsize]; exact UInt32.lt_iff_toNat_lt.mp hb
  cases hx : v.acked[b.toNat] with
  | true => exact .inr (by rw [List.getElem?_eq_getElem hlt, hx])
  | false =>
    refine .inl (List.mem_map.mpr ⟨b.toNat, List.mem_filter.mpr ⟨?_, ?_⟩, UInt32.ofNat_toNat⟩)
    · exact List.mem_range.mpr (UInt32.lt_iff_toNat_lt.mp hb)
    · simp [List.getElem?_eq_getElem hlt, hx]

/-- Where the blocks a round still has to come to are from: they were to come
before, are the ones just selected, or follow a block skipped or served. -/
theorem SendStep.todo_from {s s' : SendState rq} {a : Act Frame} {e : Option Sealed}
    (h : SendStep enc cfg s a e s') {todo : List UInt32} (ht : s'.pc.todo = some todo) :
    s.pc.todo = some todo ∨ (s.pc = .select ∧ todo = s.v.pending cfg) ∨
    ∃ b, s.pc = .blocks (b :: todo) ∧ (s.v.acked[b.toNat]? = some true ∨ s'.Turned b) := by
  cases h with
  | readerRead | readerFail | readerReturn | drainGo => exact .inl ht
  | @drainEmpty k h =>
    rcases SendState.resume_cases cfg s.v k with hk | ⟨todo', rfl, hk⟩ | hk | hk <;>
      rw [hk] at ht <;> cases ht
    exact .inl (by rw [h]; rfl)
  | selectBlocks h =>
    cases ht
    exact .inr (.inl ⟨h, rfl⟩)
  | @skip b todo' h ha =>
    cases ht
    exact .inr (.inr ⟨b, h, .inl ha⟩)
  | @turn b todo' pkts v h ha hv =>
    cases ht
    exact .inr (.inr ⟨b, h, .inr (SendState.turned_of_startTurn hv rfl)⟩)
  | dropped h =>
    cases ht
    exact .inl (by rw [h]; rfl)
  | queued h =>
    simp only at ht
    split at ht <;> cases ht <;> exact .inl (by rw [h]; rfl)
  | @packetsEnd _ todo' h =>
    rcases SendState.endTurn_cases s.v todo' with hk | ⟨-, hk⟩ | hk <;> rw [hk] at ht <;>
      cases ht <;> exact .inl (by rw [h]; rfl)
  | flush h now gone | flushTail h now gone =>
    cases gone with
    | true => cases ht
    | false =>
      cases ht
      exact .inl (by rw [h]; rfl)
  | @hello ok | @manifest _ ok => cases ok <;> cases ht
  | _ => cases ht

theorem SendStep.todo {s s' : SendState rq} {a : Act Frame} {e : Option Sealed}
    (h : SendStep enc cfg s a e s') (hi : RoundInv cfg s) {todo : List UInt32}
    (ht : s'.pc.todo = some todo) : s'.Covered cfg todo := by
  have keep : ∀ {todo}, s.Covered cfg todo → s'.Covered cfg todo :=
    h.covered fun he => by rw [he] at ht; cases ht
  rcases h.todo_from ht with hpc | ⟨-, rfl⟩ | ⟨b, hpc, hb⟩
  · exact keep (hi.todo todo hpc)
  · refine keep fun b hb => ?_
    rcases Spray.mem_pending hi.size hb with hp | ha
    · exact .inl hp
    · exact .inr (.inr ha)
  · intro b' hb'
    rcases keep (hi.todo _ (by rw [hpc]; rfl)) b' hb' with hmem | hrest
    · rcases List.mem_cons.mp hmem with rfl | hmem
      · rcases hb with hack | hturned
        · exact .inr (.inr (h.acked_mono.2 b' hack))
        · exact .inr (.inl hturned)
      · exact .inl hmem
    · exact .inr hrest

theorem SendStep.ended {s s' : SendState rq} {a : Act Frame} {e : Option Sealed}
    (h : SendStep enc cfg s a e s') (hi : RoundInv cfg s) (he : s'.pc = .roundEnd) :
    s'.v.receiverGone = true ∨ s'.Covered cfg [] := by
  have keep : ∀ {todo}, s.Covered cfg todo → s'.Covered cfg todo :=
    h.covered fun hs => by rw [hs] at he; cases he
  cases h with
  | readerRead | readerFail | readerReturn => exact (hi.ended he).imp_right keep
  | blocksEnd h => exact .inr (keep (hi.todo [] (by rw [h]; rfl)))
  | @packetsEnd _ todo =>
    rcases SendState.endTurn_cases s.v todo with hk | ⟨hgone, -⟩ | hk
    · rw [hk] at he
      cases he
    · exact .inl hgone
    · rw [hk] at he
      cases he
  | flush _ _ gone hg hv | flushTail _ _ gone hg hv =>
    obtain ⟨_, -, rfl⟩ := Spray.flushed_ok hg hv
    cases gone with
    | true => exact .inl rfl
    | false => cases he
  | drainGo h => rw [show s.pc = _ from he] at h; cases h
  | @drainEmpty k =>
    rcases SendState.resume_cases cfg s.v k with hk | ⟨_, -, hk⟩ | hk | hk <;> rw [hk] at he <;>
      cases he
  | queued =>
    simp only at he
    split at he <;> cases he
  | @hello ok | @manifest _ ok => cases ok <;> cases he
  | _ => cases he

theorem SendStep.roundInv {s s' : SendState rq} {a : Act Frame} {e : Option Sealed}
    (h : SendStep enc cfg s a e s') (hi : RoundInv cfg s) : RoundInv cfg s' where
  size := by rw [h.acked_mono.1, hi.size]
  todo _ ht := h.todo hi ht
  ended he := h.ended hi he

end AtpExperiment
