/-
How far repair ids go (`transfer`).

A turn asks the codec for the symbols from `next_repair` on, and an encoding
symbol id has 24 bits. How many symbols a run has asked for is a matter of its
rounds and of the loss reports that came before each turn (`asked`): a turn
returns exactly while they and the source symbols of the block are at most 2^24,
and panics in `repair_packets` otherwise, before `next_repair` is added to
(`symbol_ids_in_range_iff`). Nothing caps the number of rounds. With a receiver
that says nothing every round asks for eight more symbols, so the run of a file
of one block gets there (`silent_panics`).
-/
import AtpExperiment.Hearing

namespace AtpExperiment

open Octets Aead Duplex

variable {rq : Raptorq} {enc : Encrypt} {cfg : SendCfg}

/-! ## One turn -/

/-- The crate's numbering, and that `repair_packets` returns while the ids are in
range. That it panics when one is not is in the type of packets. -/
structure Raptorq.Ranged (rq : Raptorq) : Prop extends rq.Numbered where
  returns {be : rq.BlockEncoder} {start n : Nat} :
    (rq.sourcePackets be).length + start + n ≤ 2 ^ 24 → ∃ ps, rq.repairPackets be start n = .ok ps

theorem Raptorq.Numbered.range_le (hrq : rq.Numbered) {be : rq.BlockEncoder} {start n : Nat}
    {ps : List EncodingPacket} (hn : 0 < n) (h : rq.repairPackets be start n = .ok ps) :
    (rq.sourcePackets be).length + start + n ≤ 2 ^ 24 := by
  have hlast : (rq.sourcePackets be).length + start + (n - 1) ∈ ps.map (·.esi) := by
    rw [hrq.repair h, List.mem_range'_1]
    omega
  obtain ⟨p, -, hp⟩ := List.mem_map.mp hlast
  have := p.esi_lt
  omega

/-- The turn that comes next asks for `n` repair symbols of block `b`, from
`next` on. -/
structure SendState.Asks (cfg : SendCfg) (s : SendState rq) (b : UInt32) (be : rq.BlockEncoder)
    (k : Nat) (next n : UInt32) : Prop where
  turn : ∃ todo, s.pc = .blocks (b :: todo)
  unacked : s.v.acked[b.toNat]? ≠ some true
  encoder : ∃ e bes, buildEncoder cfg.layout cfg.data b = .ok e ∧ rq.blockEncoders e = be :: bes
  symbols : cfg.layout.sourceSymbols b = .ok k
  next : s.v.nextRepair[b.toNat]? = some next
  count : s.v.repairCount cfg k = .ok n

namespace SendState.Asks

variable {s : SendState rq} {b : UInt32} {be : rq.BlockEncoder} {k : Nat} {next n : UInt32}

theorem pos (h : s.Asks cfg b be k next n) : 0 < n.toNat := by
  have hleast := (Spray.repairCount_bounds h.count).1
  unfold leastRepair at hleast
  split at hleast <;> omega

theorem startTurn_eq (h : s.Asks cfg b be k next n) (hc : s.Cached cfg) :
    ∃ encoders, s.v.startTurn cfg b = do
      let repair ← rq.repairPackets be next.toNat n.toNat
      let next ← Checked.addU32 next n
      return ((if s.v.round = 0 then rq.sourcePackets be else []) ++ repair,
        { s.v with encoders, nextRepair := s.v.nextRepair.set b.toNat next }) := by
  obtain ⟨e, bes, hbuild, hbe⟩ := h.encoder
  rcases hc.call (by decide) b with ⟨e', encoders, hget, hbuild', -⟩ | ⟨p, -, hbuild'⟩
  · cases hbuild.symm.trans hbuild'
    refine ⟨encoders, ?_⟩
    simp only [Spray.startTurn, h.symbols, hget, Checked.ok_bind, hbe, h.next, h.count]
  · cases hbuild.symm.trans hbuild'

theorem addU32_of_range (h : (rq.sourcePackets be).length + next.toNat + n.toNat ≤ 2 ^ 24) :
    Checked.addU32 next n = .ok (next + n) :=
  if_pos (by omega)

theorem startTurn_of_range (h : s.Asks cfg b be k next n) (hc : s.Cached cfg) (hrq : rq.Ranged)
    (hle : (rq.sourcePackets be).length + next.toNat + n.toNat ≤ 2 ^ 24) :
    ∃ pkts v', s.v.startTurn cfg b = .ok (pkts, v') := by
  obtain ⟨encoders, heq⟩ := h.startTurn_eq hc
  obtain ⟨repair, hrep⟩ := hrq.returns hle
  rw [heq, hrep, addU32_of_range hle]
  exact ⟨_, _, rfl⟩

theorem range_of_startTurn (h : s.Asks cfg b be k next n) (hc : s.Cached cfg) (hrq : rq.Numbered)
    {r : List EncodingPacket × Spray rq} (hr : s.v.startTurn cfg b = .ok r) :
    (rq.sourcePackets be).length + next.toNat + n.toNat ≤ 2 ^ 24 := by
  obtain ⟨encoders, heq⟩ := h.startTurn_eq hc
  rw [heq, Checked.bind_eq_ok] at hr
  obtain ⟨repair, hrep, -⟩ := hr
  exact hrq.range_le h.pos hrep

/-- The ids grow by at most the largest turn a round. -/
theorem next_le (h : s.Asks cfg b be k next n) (ht : TurnInv s) (hi : RepairInv cfg s) :
    next.toNat + n.toNat ≤ mostRepair k * (s.v.round.toNat + 1) := by
  have hn := (Spray.repairCount_bounds h.count).2
  have hnext : next.toNat ≤ mostRepair k * s.v.round.toNat := by
    rcases hi.next b next h.next with ⟨-, hz⟩ | ⟨k', e, be', bes, hk, -, -, hs⟩
    · rw [hz]
      exact Nat.zero_le _
    · cases h.symbols.symm.trans hk
      obtain ⟨todo, hpc⟩ := h.turn
      refine hs.next_le fun t htb => UInt32.lt_iff_toNat_lt.mp ?_
      obtain ⟨hmem, hblock⟩ := List.mem_filter.mp htb
      exact ht.due _ (by rw [hpc]; rfl) t hmem (by simp [of_decide_eq_true hblock])
  rw [Nat.mul_succ]
  omega

end SendState.Asks

/-! ## What a run asks for -/

/-- The estimator after a report, which `update` never refuses. -/
def LossEstimator.took (e : LossEstimator) (u : Counts) : LossEstimator :=
  (e.interval u).elim { e with last := some (e.last.getD u) } fun _ => ⟨e.smoothed u, true, some u⟩

theorem LossEstimator.update_took (e : LossEstimator) (u : Counts) :
    e.update u.1 u.2 = .ok (e.took u) := by
  rw [update_eq, took]
  cases e.interval u <;> rfl

/-- The repair symbols of a turn: a fraction of the `k` source symbols that goes
by the command line and the loss reported, and at least two or eight. -/
def repairSize (cfg : SendCfg) (k : Nat) (round : UInt32) (e : LossEstimator) : Nat :=
  if round = 0 then
    let adaptive := if e.primed then e.ewma * (3 / 2) + 2 / 100 else 0
    max 2 (ceilU32 (k * max 0 (min (max (cfg.overhead / 100) adaptive) (8 / 10)))).toNat
  else
    let base := if e.primed then e.ewma * (3 / 2) else 0
    max 8 (ceilU32 (k * (max (5 / 100) (min base (8 / 10)) *
      (1 + 25 / 100 * ((min round.toNat 4 : Nat) : ℚ))))).toNat

theorem toNat_max (a x : UInt32) : (if x < a then a else x).toNat = max a.toNat x.toNat := by
  split
  · next h => exact (max_eq_left (UInt32.le_iff_toNat_le.mp (UInt32.le_of_lt h))).symm
  · next h => exact (max_eq_right (UInt32.le_iff_toNat_le.mp (UInt32.not_lt.mp h))).symm

theorem Spray.repairCount_size {v : Spray rq} {k : Nat} {n : UInt32}
    (h : v.repairCount cfg k = .ok n) : n.toNat = repairSize cfg k v.round v.loss := by
  unfold repairCount at h
  unfold repairSize
  split at h
  · next hround =>
    rw [LossEstimator.round0Frac, clamp_ok (by norm_num), Checked.ok_bind] at h
    rw [if_pos hround, ← Except.ok.inj h, toNat_max]
    rfl
  · next hround =>
    rw [LossEstimator.repairFrac, clamp_ok (by norm_num), Checked.ok_bind] at h
    rw [if_neg hround, ← Except.ok.inj h, toNat_max]
    rfl

/-- What sizes repair: a report, with the packets received and sent, and a turn
of a block. -/
inductive Sizing
  | report (u : Counts)
  | turn (b round : UInt32)

/-- The estimator after an event. -/
def Sizing.heard (e : LossEstimator) : Sizing → LossEstimator
  | .report u => e.took u
  | .turn .. => e

/-- The repair symbols of block `b` that an event asks for. -/
def Sizing.size (cfg : SendCfg) (k : Nat) (b : UInt32) (e : LossEstimator) : Sizing → Nat
  | .report _ => 0
  | .turn b' round => if b' = b then repairSize cfg k round e else 0

/-- The repair symbols of block `b`, of `k` source symbols, that the turns of a run
ask for, each by the reports before it. -/
def asked (cfg : SendCfg) (k : Nat) (b : UInt32) : LossEstimator → List Sizing → Nat
  | _, [] => 0
  | e, x :: log => x.size cfg k b e + asked cfg k b (x.heard e) log

theorem asked_append (cfg : SendCfg) (k : Nat) (b : UInt32) (e : LossEstimator)
    (log log' : List Sizing) : asked cfg k b e (log ++ log') =
      asked cfg k b e log + asked cfg k b (log.foldl Sizing.heard e) log' := by
  induction log generalizing e with
  | nil => exact (Nat.zero_add _).symm
  | cons x log ih =>
    rw [List.cons_append, asked, asked, ih, List.foldl_cons]
    omega

theorem asked_turn (cfg : SendCfg) (k : Nat) (b b' round : UInt32) (log : List Sizing) :
    asked cfg k b .new (log ++ [.turn b' round]) = asked cfg k b .new log +
      if b' = b then repairSize cfg k round (log.foldl Sizing.heard .new) else 0 := by
  rw [asked_append]
  rfl

/-- The sizing event of a step: a report taken off the channel, or a turn. -/
def SendState.sizing (a : SendState rq × SendState rq) : List Sizing :=
  match a.1.pc, a.1.chan with
  | .blocks (b :: _), _ =>
    if a.1.turns.length < a.2.turns.length then [.turn b a.1.v.round] else []
  | .drain _, m :: _ =>
    if a.2.chan.length < a.1.chan.length then
      (m.report.map fun r => Sizing.report (r.1, r.2.getD a.1.v.packetsSent)).toList
    else []
  | _, _ => []

/-- A run to `s`, and its reports and turns. -/
def Sizes (enc : Encrypt) (cfg : SendCfg) : SendState rq → List Sizing → Prop :=
  Runs.Emits (· = SendState.init rq cfg) SendState.sizing
    fun s a t => a = (s, t) ∧ SendNext enc cfg s t

theorem Sizes.reachable {s : SendState rq} {log : List Sizing} (h : Sizes enc cfg s log) :
    Runs.Reachable (· = SendState.init rq cfg) (SendNext enc cfg) s := by
  induction h with
  | start h => exact .start h
  | next _ hst ih => exact ih.next hst.2

theorem exists_sizes {s : SendState rq}
    (h : Runs.Reachable (· = SendState.init rq cfg) (SendNext enc cfg) s) :
    ∃ log, Sizes enc cfg s log := by
  refine h.invariant (fun s => ∃ log, Sizes enc cfg s log) ?_ ?_
  · rintro s rfl
    exact ⟨[], .start rfl⟩
  · rintro s s' ⟨log, hlog⟩ hst
    exact ⟨_, Runs.Emits.next hlog ⟨rfl, hst⟩⟩

theorem SendState.sizing_eq_nil {s s' : SendState rq} (ht : s'.turns = s.turns)
    (hc : s.chan.length ≤ s'.chan.length ∨ ∀ k, s.pc ≠ .drain k) : sizing (s, s') = [] := by
  unfold sizing
  split
  · exact if_neg (by simp [ht])
  · next k m ms hpc _ => exact if_neg (not_lt.mpr (hc.resolve_right fun h => h k hpc))
  · rfl

/-- The loss estimate is that of the reports, and `next_repair` what the turns
asked for. -/
structure SizeInv (cfg : SendCfg) (s : SendState rq) (log : List Sizing) : Prop where
  loss : s.v.loss = log.foldl Sizing.heard .new
  next : ∀ b next k, s.v.nextRepair[b.toNat]? = some next → cfg.layout.sourceSymbols b = .ok k →
    next.toNat = asked cfg k b .new log

namespace SizeInv

variable {s s' : SendState rq} {log : List Sizing}

theorem init (cfg : SendCfg) : SizeInv cfg (SendState.init rq cfg) [] where
  loss := rfl
  next b next k h _ := by
    simp only [SendState.init, Spray.new, List.getElem?_replicate] at h
    split at h
    · cases h
      rfl
    · cases h

theorem same (hi : SizeInv cfg s log) (hz : SendState.sizing (s, s') = [])
    (hl : s'.v.loss = s.v.loss) (hn : s'.v.nextRepair = s.v.nextRepair) :
    SizeInv cfg s' (log ++ SendState.sizing (s, s')) where
  loss := by rw [hz, List.append_nil, hl, hi.loss]
  next := by
    rw [hz, List.append_nil, hn]
    exact hi.next

theorem drained (hi : SizeInv cfg s log) {k : Resume} {m : Feedback} {ms : List Feedback}
    (hpc : s.pc = .drain k) (hm : s.chan = m :: ms) {v : Spray rq}
    (hv : s.v.onFeedback m = .ok (.go v)) :
    SizeInv cfg { s with v, chan := ms }
      (log ++ SendState.sizing (s, { s with v, chan := ms })) := by
  have hz : SendState.sizing (s, { s with v, chan := ms }) =
      (m.report.map fun r => Sizing.report (r.1, r.2.getD s.v.packetsSent)).toList := by
    simp [SendState.sizing, hpc, hm]
  have hn : v.nextRepair = s.v.nextRepair := by
    obtain ⟨_, _, _, _, _, rfl⟩ := Spray.onFeedback_frame hv
    rfl
  rcases Spray.onFeedback_loss hv with ⟨hnone, hloss⟩ | ⟨pkts, span, hsome, hupdate⟩
  · refine hi.same ?_ hloss hn
    rw [hz, hnone]
    rfl
  · rw [hz, hsome]
    refine ⟨?_, fun b next k hb hk => ?_⟩
    · have htook := s.v.loss.update_took (pkts, span.getD s.v.packetsSent)
      rw [← Except.ok.inj (htook.symm.trans hupdate), hi.loss]
      rw [List.foldl_append]
      rfl
    · rw [asked_append]
      exact hi.next b next k (hn ▸ hb) hk

theorem turned (hi : SizeInv cfg s log) {b : UInt32} {todo : List UInt32}
    {pkts : List EncodingPacket} (hpc : s.pc = .blocks (b :: todo))
    (hv : s.v.startTurn cfg b = .ok (pkts, s'.v))
    (ht : s'.turns = s.turns ++ [⟨s.v.round, b, pkts⟩]) :
    SizeInv cfg s' (log ++ SendState.sizing (s, s')) := by
  have hz : SendState.sizing (s, s') = [.turn b s.v.round] := by
    simp [SendState.sizing, hpc, ht]
  obtain ⟨k, e, be, bes, encoders, next, n, repair, next', hk, -, -, hnext, hn, -, hadd, -, hv'⟩ :=
    Spray.startTurn_eq_ok hv
  rw [hz]
  refine ⟨?_, fun c m k' hc hk' => ?_⟩
  · rw [hv', List.foldl_append]
    exact hi.loss
  rw [asked_turn]
  simp only [hv', List.getElem?_set] at hc
  by_cases hbc : b = c
  · subst hbc
    cases hk.symm.trans hk'
    have hlt : b.toNat < s.v.nextRepair.length := (List.getElem?_eq_some_iff.mp hnext).1
    rw [if_pos rfl, if_pos hlt, Option.some.injEq] at hc
    rw [if_pos rfl, ← hi.loss, ← Spray.repairCount_size hn, ← hi.next b next k hnext hk, ← hc,
      Checked.addU32_eq_ok hadd]
  · rw [if_neg fun h => hbc (UInt32.toNat.inj h)] at hc
    rw [if_neg hbc, Nat.add_zero]
    exact hi.next c m k' hc hk'

theorem step (hi : SizeInv cfg s log) {a : Act Frame} {e : Option Sealed}
    (h : SendStep enc cfg s a e s') (ha : s'.pc.alive = true) :
    SizeInv cfg s' (log ++ SendState.sizing (s, s')) := by
  cases h with
  | drainGo h hm hv => exact hi.drained h hm hv
  | turn h _ hv => exact hi.turned h hv rfl
  | drainDone | awaitDone | drainErr | drainPanic => cases ha
  | awaitOther h => exact hi.same (SendState.sizing_eq_nil rfl (.inr (by simp [h]))) rfl rfl
  | readerRead | readerFail => exact hi.same (SendState.sizing_eq_nil rfl (.inl (by simp))) rfl rfl
  | dropped _ hv | queued _ hv | encodeFail _ hv =>
    obtain ⟨_, _, _, _, _, _, rfl⟩ := Spray.sendPacket_frame hv
    exact hi.same (SendState.sizing_eq_nil rfl (.inl le_rfl)) rfl rfl
  | flush _ _ _ hg hv | flushTail _ _ _ hg hv =>
    obtain ⟨_, -, rfl⟩ := Spray.flushed_ok hg hv
    exact hi.same (SendState.sizing_eq_nil rfl (.inl le_rfl)) rfl rfl
  | _ => exact hi.same (SendState.sizing_eq_nil rfl (.inl le_rfl)) rfl rfl

end SizeInv

/-- Every run of a sender that has not ended. -/
theorem Sizes.inv {s : SendState rq} {log : List Sizing} (h : Sizes enc cfg s log)
    (ha : s.pc.alive = true) : SizeInv cfg s log := by
  induction h with
  | start h => exact h ▸ .init cfg
  | next _ hst ih =>
    obtain ⟨rfl, a, e, hst⟩ := hst
    exact (ih (hst.alive ha)).step hst ha

theorem SendState.Asks.asked_eq {s : SendState rq} {b : UInt32} {be : rq.BlockEncoder} {k : Nat}
    {next n : UInt32} {log : List Sizing} (h : s.Asks cfg b be k next n)
    (hs : Sizes enc cfg s log) :
    asked cfg k b .new (log ++ [.turn b s.v.round]) = next.toNat + n.toNat := by
  obtain ⟨todo, hpc⟩ := h.turn
  have hi := hs.inv (by rw [hpc]; rfl)
  rw [asked_turn, if_pos rfl, ← hi.loss, ← Spray.repairCount_size h.count,
    hi.next b next k h.next h.symbols]

/-- **When symbol ids are in range.** In every run, at every turn: each repair
symbol asked for has an id below 2^24, `next_repair` does not overflow and the
turn returns, exactly when the source symbols of the block and the repair symbols
that the rounds and the loss reports of the run, up to and with this turn, size
for it are at most 2^24 (`asked`). Otherwise the turn panics in `repair_packets`:
whenever that returns, the addition to `next_repair` does not overflow. A round
adds at most `mostRepair` symbols whatever is reported, so the ids are in range in
every run of few enough rounds. -/
theorem symbol_ids_in_range_iff (rq : Raptorq) (hrq : rq.Ranged) (enc : Encrypt) (cfg : SendCfg)
    {s : SendState rq} {log : List Sizing} (hs : Sizes enc cfg s log) {b : UInt32}
    {be : rq.BlockEncoder} {k : Nat} {next n : UInt32} (h : s.Asks cfg b be k next n) :
    (((∀ r, next.toNat ≤ r → r < next.toNat + n.toNat →
          (rq.sourcePackets be).length + r < 2 ^ 24) ∧
        next.toNat + n.toNat < 2 ^ 32 ∧ ∃ r, s.v.startTurn cfg b = .ok r) ↔
      (rq.sourcePackets be).length + asked cfg k b .new (log ++ [.turn b s.v.round]) ≤ 2 ^ 24) ∧
    (∀ ps, rq.repairPackets be next.toNat n.toNat = .ok ps → next.toNat + n.toNat < 2 ^ 32) ∧
    ((rq.sourcePackets be).length + mostRepair k * (s.v.round.toNat + 1) ≤ 2 ^ 24 →
      (rq.sourcePackets be).length + asked cfg k b .new (log ++ [.turn b s.v.round]) ≤ 2 ^ 24) := by
  have hc := cached_of_reachable hs.reachable
  obtain ⟨ht, hi, -⟩ := repair_of_reachable hs.reachable
  rw [h.asked_eq hs, ← Nat.add_assoc]
  refine ⟨⟨fun hx => ?_, fun hle => ⟨fun r _ hr => by omega, by omega, ?_⟩⟩, fun ps hps => ?_,
    fun hle => ?_⟩
  · obtain ⟨-, -, r, hr⟩ := hx
    exact h.range_of_startTurn hc hrq.toNumbered hr
  · obtain ⟨pkts, v', hv⟩ := h.startTurn_of_range hc hrq hle
    exact ⟨_, hv⟩
  · have := hrq.toNumbered.range_le h.pos hps
    omega
  · have := h.next_le ht hi
    omega

/-! ## A receiver that says nothing -/

theorem Raptorq.ranged_counted : counted.Ranged where
  toNumbered := numbered_counted
  returns h := by
    obtain ⟨ps, hps, -⟩ := counted_repairPackets h
    exact ⟨ps, hps⟩

theorem Raptorq.counted_data {be : Octets} {start n : Nat} {ps : List EncodingPacket}
    (h : counted.repairPackets be start n = .ok ps) : ∀ p ∈ ps, p.data = be := by
  simp only [counted] at h
  split at h
  · cases h
    intro p hp
    obtain ⟨i, -, rfl⟩ := List.mem_map.mp hp
    rfl
  · cases h

/-- The repair symbols of the tiny file's block before round `r`. -/
def quietIds : Nat → Nat
  | 0 => 0
  | r + 1 => 8 * r + 2

theorem quietIds_of_pos {r : Nat} (h : 0 < r) : quietIds r + 6 = 8 * r := by
  obtain ⟨r, rfl⟩ := Nat.exists_eq_succ_of_ne_zero h.ne'
  simp only [Nat.succ_eq_add_one, quietIds]
  omega

/-- Round `r` is about to start, and nothing was heard. -/
structure Quiet (r : Nat) (s : SendState .counted) : Prop where
  pc : s.pc = .drain .top
  chan : s.chan = []
  reader : s.reader = .running
  plane : s.v.plane = .plain
  batch : s.v.batch = []
  segs : s.v.batchSegs = 0
  rate : s.v.pacer.bytesPerSec = Rate.startRateBps
  deadline : ∀ d ∈ s.v.pacer.next, d ≤ maxGsoBytes * r
  loss : s.v.loss = .new
  gone : s.v.receiverGone = false
  acked : s.v.acked = [false]
  round : s.v.round.toNat = r
  next : ∃ next : UInt32, s.v.nextRepair = [next] ∧ next.toNat = quietIds r
  sent : s.v.packetsSent.toNat ≤ 9 * r
  bytes : s.v.bytesSent.toNat ≤ cfg128.seg * (9 * r)

/-- The number of repair symbols of a quiet turn. -/
def quietCount (round : UInt32) : UInt32 := if round = 0 then 2 else 8

theorem quietIds_succ (round : UInt32) :
    quietIds (round.toNat + 1) = quietIds round.toNat + (quietCount round).toNat := by
  unfold quietCount
  split
  · next h => rw [h]; rfl
  · next h =>
    obtain ⟨r, hr⟩ : ∃ r, round.toNat = r + 1 :=
      Nat.exists_eq_succ_of_ne_zero fun hz => h (UInt32.toNat.inj hz)
    rw [hr]
    show 8 * (r + 1) + 2 = 8 * r + 2 + 8
    omega

set_option maxRecDepth 4000 in
theorem Quiet.asks {r : Nat} {s : SendState .counted} (hq : Quiet r s)
    (hs : Runs.Reachable (· = SendState.init .counted cfg128) (SendNext enc cfg128) s) :
    ∃ s' : SendState .counted, Runs.Reachable (· = SendState.init .counted cfg128)
        (SendNext enc cfg128) s' ∧
      s' = { s with pc := .blocks [0] } ∧
      ∃ next : UInt32, next.toNat = quietIds r ∧ s.v.nextRepair = [next] ∧
        s'.Asks cfg128 0 tinyData 1 next (quietCount s.v.round) := by
  obtain ⟨next, hnext, hid⟩ := hq.next
  have hpending : s.v.pending cfg128 = [0] := by
    simp only [Spray.pending, hq.acked]
    decide
  have h₁ := hs.next ⟨_, _, .drainEmpty hq.pc hq.chan (by rw [hq.reader]; decide)⟩
  have h₂ := h₁.next ⟨_, _, .selectBlocks rfl (by simp [hpending, hq.gone])⟩
  refine ⟨_, h₂, by simp only [hpending], next, hid, hnext, ?_⟩
  exact ⟨⟨[], by simp only [hpending]⟩, by simp [hq.acked], ⟨_, [], rfl, rfl⟩, rfl,
    by simp [hnext], quiet_repairCount hq.loss⟩

theorem quietCount_le (round : UInt32) :
    0 < (quietCount round).toNat ∧ (quietCount round).toNat ≤ 8 := by
  unfold quietCount
  split <;> decide

theorem quiet_startTurn {s : SendState .counted} {v' : Spray .counted} {next : UInt32}
    {pkts : List EncodingPacket} (h : s.Asks cfg128 0 tinyData 1 next (quietCount s.v.round))
    (hc : s.Cached cfg128) (hnext : s.v.nextRepair = [next])
    (hv : s.v.startTurn cfg128 0 = .ok (pkts, v')) :
    ∃ encoders next', v' = { s.v with encoders, nextRepair := [next'] } ∧
      next'.toNat = next.toNat + (quietCount s.v.round).toNat ∧ 0 < pkts.length ∧
      pkts.length ≤ 9 ∧ ∀ p ∈ pkts, p.data = tinyData := by
  obtain ⟨encoders, heq⟩ := h.startTurn_eq hc
  rw [heq] at hv
  simp only [Checked.bind_eq_ok, Checked.pure_eq_ok, Prod.mk.injEq] at hv
  obtain ⟨repair, hrep, next', hadd, rfl, rfl⟩ := hv
  have hlen : repair.length = (quietCount s.v.round).toNat := by
    have := congrArg List.length (Raptorq.numbered_counted.repair hrep)
    rwa [List.length_map, List.length_range'] at this
  have hcount := quietCount_le s.v.round
  have hsource :
      (if s.v.round = 0 then Raptorq.counted.sourcePackets tinyData else []).length ≤ 1 := by
    split
    · exact Nat.le_refl 1
    · exact Nat.zero_le 1
  refine ⟨encoders, next', by simp [hnext], Checked.addU32_eq_ok hadd, ?_, ?_, fun p hp => ?_⟩
  · rw [List.length_append, hlen]
    omega
  · rw [List.length_append, hlen]
    omega
  · rcases List.mem_append.mp hp with hp | hp
    · split at hp
      · rw [List.mem_singleton.mp hp]
      · cases hp
    · exact Raptorq.counted_data hrep p hp

/-- After the last packet of the last turn: the batch goes out, the round ends,
and with no ack so does the settle pause. -/
theorem round_ends {b : UInt32} {v v' : Spray rq} {turns : List Turn} {round : UInt32}
    (hgone : v.receiverGone = false) (hsegs : 0 < v.batchSegs)
    (hv : v.flushed cfg 0 false = .ok v') (hround : Checked.addU32 v'.round 1 = .ok round)
    (h : Runs.Reachable (· = SendState.init rq cfg) (SendNext enc cfg)
      ⟨.packets b [] [], v, .running, [], turns⟩) :
    Runs.Reachable (· = SendState.init rq cfg) (SendNext enc cfg)
      ⟨.drain .top, { v' with round }, .running, [], turns⟩ := by
  have h₁ := h.next ⟨_, _, .packetsEnd rfl⟩
  rw [show SendState.endTurn v [] = .flushTail [] from if_pos ⟨hgone, hsegs⟩] at h₁
  have h₂ := h₁.next ⟨_, _, .flushTail rfl 0 false (by simp) hv⟩
  have h₃ := h₂.next ⟨_, _, .drainEmpty rfl rfl (by simp)⟩
  have h₄ := h₃.next ⟨_, _, .blocksEnd rfl⟩
  have h₅ := h₄.next ⟨_, _, .roundEnd rfl hround⟩
  have h₆ := h₅.next ⟨_, _, .settle rfl⟩
  have h₇ := h₆.next ⟨_, _, .drainEmpty rfl rfl (by simp)⟩
  simpa [SendState.resume] using h₇

/-- One batch a round at the start rate, and the deadline is away from the end of
the clock for as many rounds. -/
theorem flushed_round {v : Spray rq} {r : Nat} (hlen : v.batch.length ≤ maxGsoBytes)
    (hrate : v.pacer.bytesPerSec = Rate.startRateBps)
    (hd : ∀ d ∈ v.pacer.next, d ≤ maxGsoBytes * r) (hr : r < 2 ^ 22) :
    ∃ pacer, v.flushed cfg 0 false =
        .ok { v with batch := [], batchSegs := 0, receiverGone := false, pacer } ∧
      pacer.bytesPerSec = Rate.startRateBps ∧
      ∀ d ∈ pacer.next, d ≤ maxGsoBytes * (r + 1 : Nat) := by
  have hone : 1 ≤ v.pacer.bytesPerSec := by
    rw [hrate]
    norm_num [Rate.startRateBps]
  have hnow : (0 : ℚ) ≤ maxGsoBytes * r := by positivity
  have hend : (maxGsoBytes * r : ℚ) + maxGsoBytes < Pacer.instantEnd := by
    have hr' : (r : ℚ) < 2 ^ 22 := by exact_mod_cast hr
    norm_num only [maxGsoBytes, Pacer.instantEnd]
    linarith
  obtain ⟨w, hw, hnext⟩ : ∃ w, v.flushed cfg 0 false = .ok w ∧ _ :=
    Spray.flushed_returns hlen hone hnow hd hend
  obtain ⟨pacer, hbps, rfl⟩ := Spray.flushed_ok (Bool.noConfusion ·) hw
  refine ⟨pacer, hw, hbps.trans hrate, fun d hd => (hnext d hd).trans (le_of_eq ?_)⟩
  push_cast
  ring

/-- A quiet round within the limit is followed by another. -/
theorem Quiet.next_round {r : Nat} {s : SendState .counted} (hq : Quiet r s)
    (hs : Runs.Reachable (· = SendState.init .counted cfg128) (SendNext enc cfg128) s)
    (hle : 1 + quietIds (r + 1) ≤ 2 ^ 24) :
    ∃ s' : SendState .counted, Runs.Reachable (· = SendState.init .counted cfg128)
        (SendNext enc cfg128) s' ∧ Quiet (r + 1) s' := by
  obtain ⟨s₁, h₁, rfl, next, hid, hnext, hasks⟩ := hq.asks hs
  obtain ⟨pc, v, reader, chan, turns⟩ := s
  obtain ⟨rfl, rfl, rfl, hplane, hbatch, hsegs, hrate, hdeadline, hloss, hgone, hacked, rfl, -,
    hsent, hbytes⟩ := hq
  simp only at hplane hbatch hsegs hrate hdeadline hloss hgone hacked hsent
  simp only at hbytes hnext hasks hid hle
  have hsucc := quietIds_succ v.round
  have hrounds : v.round.toNat < 2 ^ 22 := by
    have := quietIds_of_pos (r := v.round.toNat + 1) (Nat.succ_pos _)
    omega
  have hc := cached_of_reachable h₁
  -- The turn returns.
  obtain ⟨pkts, v', hturn⟩ := hasks.startTurn_of_range hc Raptorq.ranged_counted (by
      show 1 + next.toNat + (quietCount v.round).toNat ≤ 2 ^ 24
      omega)
  have h₂ := h₁.next ⟨_, _, .turn rfl (by simp [hacked]) hturn⟩
  obtain ⟨encoders, next', rfl, hid', hpos, hlen, hdata⟩ := quiet_startTurn hasks hc hnext hturn
  -- Its packets fit in one batch.
  have hseg : cfg128.seg = 148 := rfl
  have hmax : cfg128.maxSegs = 64 := by decide
  have hsize : ∀ p ∈ pkts, Datagram.headerLen + (4 + p.data.length) = cfg128.seg := fun p hp => by
    rw [hdata p hp, hseg]
    simp [Datagram.headerLen, tinyData]
  rw [hseg] at hbytes
  obtain ⟨out, hputs⟩ := exists_puts h₂
  obtain ⟨batch, sent, bytes, hputs', hbatch', hsent', hbytes'⟩ := Puts.packets rfl
    (by exact hplane) (by rw [hmax]; simp only [hsegs]; omega) (by simp only; omega)
    (by rw [hseg]; simp only; omega) hsize hputs
  have hsmall : batch.length ≤ maxGsoBytes := by
    simp only [hbatch, List.length_nil, hseg] at hbatch'
    rw [hbatch', maxGsoBytes]
    omega
  obtain ⟨pacer, hflush, hrate', hdeadline'⟩ : ∃ pacer, Spray.flushed cfg128 { v with
      encoders, nextRepair := [next'], batch, batchSegs := v.batchSegs + pkts.length
      packetsSent := sent, bytesSent := bytes } 0 false = .ok _ ∧ _ :=
    flushed_round hsmall hrate hdeadline hrounds
  have hround : Checked.addU32 v.round 1 = .ok (v.round + 1) :=
    if_pos (by have : (1 : UInt32).toNat = 1 := rfl; omega)
  have h₃ := round_ends (by exact hgone) (by simp only; omega) hflush (by exact hround)
    hputs'.reachable
  refine ⟨_, h₃, rfl, rfl, rfl, hplane, rfl, rfl, hrate', hdeadline', hloss, rfl, hacked,
    Checked.addU32_eq_ok hround, ⟨next', rfl, ?_⟩, ?_, ?_⟩
  · rw [hid', hid, hsucc]
  · simp only at hsent' ⊢
    omega
  · rw [hseg] at hbytes' ⊢
    simp only at hbytes' ⊢
    omega

theorem quiet_reachable (enc : Encrypt) {r : Nat} (hr : 1 + quietIds r ≤ 2 ^ 24) :
    ∃ s : SendState .counted, Runs.Reachable (· = SendState.init .counted cfg128)
        (SendNext enc cfg128) s ∧ Quiet r s := by
  induction r with
  | zero =>
    exact ⟨_, spraying_reachable .counted enc cfg128, rfl, rfl, rfl, rfl, rfl, rfl, rfl,
      fun d hd => (by cases hd), rfl, rfl, rfl, rfl, ⟨0, rfl, rfl⟩, Nat.le_refl _, Nat.le_refl _⟩
  | succ r ih =>
    obtain ⟨s, hs, hq⟩ := ih (by cases r <;> simp only [quietIds] at hr ⊢ <;> omega)
    exact hq.next_round hs hr

/-- The second turn of the tiny file asks for eight symbols after the two of the
first, in range. -/
theorem symbol_ids_in_range_second : ∃ (s : SendState .counted) (log : List Sizing)
    (be : Octets) (next n : UInt32), Sizes (fun _ _ _ => none) cfg128 s log ∧
      s.Asks cfg128 0 be 1 next n ∧ s.v.round = 1 ∧
      asked cfg128 1 0 .new (log ++ [.turn 0 1]) = 10 ∧ ∃ r, s.v.startTurn cfg128 0 = .ok r := by
  obtain ⟨s, hs, hq⟩ := quiet_reachable (fun _ _ _ => none) (r := 1) (by decide)
  obtain ⟨s', hs', rfl, next, hid, -, hasks⟩ := hq.asks hs
  obtain ⟨log, hlog⟩ := exists_sizes hs'
  have hround : s.v.round = 1 := UInt32.toNat.inj hq.round
  have hasked := hasks.asked_eq hlog
  simp only [hround, hid] at hasked
  refine ⟨_, log, tinyData, next, _, hlog, hasks, hround, hasked, ?_⟩
  have hrange := symbol_ids_in_range_iff .counted Raptorq.ranged_counted _ cfg128 hlog hasks
  refine (hrange.1.mpr ?_).2.2
  simp only [hround, hasked]
  decide

/-- **A silent receiver makes the sender panic.** The tiny file, in plaintext and
with no report or ack ever read: after 2097152 rounds the next id of the block is
2^24 - 5, its turn asks for eight symbols, and `repair_packets` panics. -/
theorem silent_panics : ∃ (s s' : SendState .counted) (be : Octets) (next : UInt32),
    Runs.Reachable (· = SendState.init .counted cfg128) (SendNext (fun _ _ _ => none) cfg128) s ∧
      s.v.round = 2097152 ∧ s.chan = [] ∧ s.Asks cfg128 0 be 1 next 8 ∧
      2 ^ 24 < (Raptorq.counted.sourcePackets be).length + next.toNat + 8 ∧
      SendNext (fun _ _ _ => none) cfg128 s s' ∧ s'.pc = .panicked := by
  have hids := quietIds_of_pos (r := 2097152) (by decide)
  obtain ⟨s, hs, hq⟩ := quiet_reachable (fun _ _ _ => none) (r := 2097152) (by omega)
  obtain ⟨s', hs', rfl, next, hid, -, hasks⟩ := hq.asks hs
  have hround : s.v.round = 2097152 := UInt32.toNat.inj (hq.round.trans rfl)
  rw [hround, show quietCount 2097152 = 8 from rfl] at hasks
  have hout : 2 ^ 24 < (Raptorq.counted.sourcePackets tinyData).length + next.toNat + 8 := by
    show 2 ^ 24 < 1 + next.toNat + 8
    omega
  cases hturn : s.v.startTurn cfg128 0 with
  | ok r =>
    have := hasks.range_of_startTurn (cached_of_reachable hs') Raptorq.numbered_counted hturn
    have h8 : (8 : UInt32).toNat = 8 := rfl
    omega
  | error p =>
    exact ⟨_, _, tinyData, next, hs', hround, hq.chan, hasks, hout,
      ⟨_, _, .turnPanic rfl hasks.unacked hturn⟩, rfl⟩

end AtpExperiment
