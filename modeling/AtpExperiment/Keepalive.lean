/-
The keepalive task of pull mode (`udp.rs`, `spawn_flow_keepalive`) beside the
transfer that spawned it.

`handle_transfer` aborts the task in one place, after the collection loop; a
`JoinHandle` that is dropped detaches its task. So the task is gone when the
transfer returns exactly if it was never spawned or the loop was left
(`keepalive_released_iff`): every error between the spawn and the end of the
loop leaves it running, and it goes on opening the flow
(`keepalive_outlives`). An aborted task is taken to send nothing more.
-/
import AtpExperiment.Datagram
import AtpExperiment.Lib.Runs
import AtpExperiment.RecvFacts

namespace AtpExperiment

open Octets Aead Duplex

/-- The task: the sender's port, the tag, and whether an error ended its loop. -/
structure KeepaliveTask where
  port : UInt16
  tag : UInt64
  ended : Bool
  deriving DecidableEq

/-- The transfer and the task it spawned. -/
structure PullState (rq : Raptorq) where
  recv : RecvState rq
  task : Option KeepaliveTask

/-- What the two do that can be seen. -/
inductive PullAct
  | transfer (a : Act Frame)
  /-- The task sent a datagram to a port of the sender. -/
  | flowOpen (port : UInt16) (dgram : Octets)
  /-- The task's send would block, or failed. -/
  | unsent

variable {rq : Raptorq}

/-- `handle_transfer` is entered. -/
def PullState.init (rq : Raptorq) : PullState rq := ⟨.init rq, none⟩

/-- One step of the transfer, or one turn of the task's loop. -/
inductive PullStep (sha : Sha256) (plane : RxPlane) :
    PullState rq → PullAct → PullState rq → Prop
  | spawn {w : PullState rq} {s' : RecvState rq} {dec : Decrypt} {t : UInt64} {sport : UInt16}
      (hpc : w.recv.pc = .bind t (some sport)) (h : RecvStep sha plane dec w.recv .tau s')
      (hk : s'.keepalive = .running) :
    PullStep sha plane w (.transfer .tau) ⟨s', some ⟨sport, t, false⟩⟩
  | transfer {w : PullState rq} {s' : RecvState rq} {dec : Decrypt} {a : Act Frame}
      (h : RecvStep sha plane dec w.recv a s')
      (hk : s'.keepalive = .running → w.recv.keepalive = .running) :
    PullStep sha plane w (.transfer a) { w with recv := s' }
  -- `send_flow_open`, as long as nothing has stopped the task.
  | sent {w : PullState rq} {task : KeepaliveTask} (hk : w.recv.keepalive = .running)
      (ht : w.task = some task) (ho : task.ended = false) :
    PullStep sha plane w (.flowOpen task.port (Datagram.flowOpen task.tag)) w
  | wouldBlock {w : PullState rq} {task : KeepaliveTask} (hk : w.recv.keepalive = .running)
      (ht : w.task = some task) (ho : task.ended = false) : PullStep sha plane w .unsent w
  | sendFail {w : PullState rq} {task : KeepaliveTask} (hk : w.recv.keepalive = .running)
      (ht : w.task = some task) (ho : task.ended = false) :
    PullStep sha plane w .unsent { w with task := some { task with ended := true } }

variable {sha : Sha256} {plane : RxPlane} {dec : Decrypt}

/-! ## What touches the task -/

/-- The task is spawned as the flow is opened, and aborted as the loop is left. -/
theorem RecvStep.keepalive {s s' : RecvState rq} {a : Act Frame}
    (h : RecvStep sha plane dec s a s') :
    s'.keepalive = s.keepalive ∨ s'.keepalive = .running ∨
      s.pc = .collect ∧ s'.pc = .sync ∧ s'.keepalive = s.keepalive.abort := by
  cases h with
  | bindPull => exact .inr (.inl rfl)
  | leave h => exact .inr (.inr ⟨h, rfl, rfl⟩)
  | _ => exact .inl rfl

theorem RecvStep.abort {s s' : RecvState rq} {a : Act Frame} (h : RecvStep sha plane dec s a s')
    (hc : s.pc = .collect) (hs : s'.pc = .sync) : s'.keepalive = s.keepalive.abort := by
  cases h with
  | leave => rfl
  | hello h | manifest h | datagram h => rw [hc] at h; cases h
  | @helloAck _ _ ok | @manifestAck ok | @ack _ _ _ ok | @tick _ _ _ _ _ _ _ ok | @done _ _ ok =>
    cases ok <;> cases hs
  | tickQuiet => cases hc.symm.trans hs
  | _ => cases hs

/-- After the loop, or returned. -/
def RecvPc.past (pc : RecvPc) : Prop := pc.left = true ∨ ∃ r, pc = .returned r

/-- Past the loop, nothing touches the task. -/
theorem RecvStep.past {s s' : RecvState rq} {a : Act Frame} (h : RecvStep sha plane dec s a s')
    (hp : s.pc.past) : s'.pc.past ∧ s'.keepalive = s.keepalive := by
  have hl : s.pc.left = true := by
    rcases hp with hl | ⟨r, hr⟩
    · exact hl
    · exact absurd hr (h.not_returned r)
  cases h with
  | readFail | callFail => exact ⟨.inr ⟨_, rfl⟩, rfl⟩
  | sync | hash => exact ⟨.inl rfl, rfl⟩
  | @done _ _ ok => cases ok <;> exact ⟨.inr ⟨_, rfl⟩, rfl⟩
  | hello h | reject h | bindPush h | bindPull h | helloAck h | manifest h | create h
  | setLenFail h | manifestAck h | batch h | recvFail h | datagram h | datagramPanic h
  | batchEnd h | batchErr h | ack h | acked h | tick h | tickQuiet h | tickPanic h | leave h =>
    rw [h] at hl
    cases hl

/-! ## Runs -/

/-- The run goes out of the collection loop. -/
def LeavesLoop (sha : Sha256) (plane : RxPlane) (w₀ : PullState rq) (acts : List PullAct)
    (w : PullState rq) : Prop :=
  ∃ pre a post u v, acts = pre ++ a :: post ∧ Runs.Trace (PullStep sha plane) w₀ pre u ∧
    u.recv.pc = .collect ∧ PullStep sha plane u a v ∧ v.recv.pc = .sync ∧
    Runs.Trace (PullStep sha plane) v post w

theorem task_eq_none_iff {acts : List PullAct} {w : PullState rq}
    (h : Runs.Trace (PullStep sha plane) (.init rq) acts w) :
    w.task = none ↔ w.recv.keepalive = .none := by
  refine h.invariant (fun w => w.task = none ↔ w.recv.keepalive = .none) (iff_of_true rfl rfl) ?_
  intro w a w' hi hst
  cases hst with
  | spawn _ _ hk => exact iff_of_false (by simp) (by simp [hk])
  | @transfer s' dec a h hk =>
    rw [hi]
    rcases h.keepalive with he | he | ⟨-, -, he⟩
    · simp only [he]
    · simp only [he, hk he]
    · simp only [he]
      cases w.recv.keepalive <;> simp [Keepalive.abort]
  | sent | wouldBlock => exact hi
  | sendFail hk ht => exact iff_of_false (by simp) (by simp [hk])

/-- Only the way out of the loop aborts the task. -/
theorem leavesLoop_of_aborted {acts : List PullAct} {w₀ w : PullState rq}
    (h : Runs.Trace (PullStep sha plane) w₀ acts w) (h₀ : w₀.recv.keepalive ≠ .aborted)
    (hw : w.recv.keepalive = .aborted) : LeavesLoop sha plane w₀ acts w := by
  obtain ⟨pre, a, post, u, v, rfl, hu, hnu, huv, hv, hvw⟩ :=
    h.crosses (fun w => w.recv.keepalive = .aborted) h₀ hw
  have hstep : u.recv.pc = .collect ∧ v.recv.pc = .sync := by
    cases huv with
    | spawn _ _ hk => cases hk.symm.trans hv
    | transfer hst =>
      rcases hst.keepalive with he | he | ⟨hc, hs, -⟩
      · exact absurd (he.symm.trans hv) hnu
      · cases he.symm.trans hv
      · exact ⟨hc, hs⟩
    | sent hk | wouldBlock hk | sendFail hk => exact absurd hv hnu
  exact ⟨pre, a, post, u, v, rfl, hu, hstep.1, huv, hstep.2, hvw⟩

/-- Out of the loop the task is aborted, if there is one, and stays so. -/
theorem released_of_leavesLoop {acts : List PullAct} {w₀ w : PullState rq}
    (h : LeavesLoop sha plane w₀ acts w) : w.recv.keepalive ≠ .running := by
  obtain ⟨pre, a, post, u, v, -, -, hc, huv, hs, hvw⟩ := h
  have hv : v.recv.keepalive ≠ .running := by
    cases huv with
    | spawn hpc => rw [hc] at hpc; cases hpc
    | transfer hst =>
      rw [hst.abort hc hs]
      cases u.recv.keepalive <;> simp [Keepalive.abort]
    | sent | wouldBlock | sendFail => cases hc.symm.trans hs
  refine (hvw.invariant (fun w => w.recv.pc.past ∧ w.recv.keepalive ≠ .running)
    ⟨.inl (by rw [hs]; rfl), hv⟩ ?_).2
  intro w a w' hi hst
  cases hst with
  | spawn hpc =>
    rw [hpc] at hi
    rcases hi.1 with hl | ⟨r, hr⟩
    · cases hl
    · cases hr
  | transfer hst =>
    obtain ⟨hp, hk⟩ := hst.past hi.1
    exact ⟨hp, by rw [hk]; exact hi.2⟩
  | sent hk | wouldBlock hk | sendFail hk => exact absurd hk hi.2

/-- **When no keepalive outlives its transfer.** When a run of `handle_transfer`
returns, its keepalive task is not running exactly if none was spawned or the
run left the collection loop; and from then on no flow-open is sent exactly if
it is not running or had stopped by itself on a send error. -/
theorem keepalive_released_iff {acts : List PullAct} {w : PullState rq} {r : Except Error Unit}
    (h : Runs.Trace (PullStep sha plane) (.init rq) acts w) (hr : w.recv.pc = .returned r) :
    (w.recv.keepalive ≠ .running ↔ w.task = none ∨ LeavesLoop sha plane (.init rq) acts w) ∧
    ((∀ acts' w', Runs.Trace (PullStep sha plane) w acts' w' →
        ∀ port dgram, .flowOpen port dgram ∉ acts') ↔
      w.recv.keepalive ≠ .running ∨ ∃ task, w.task = some task ∧ task.ended = true) := by
  have htask := task_eq_none_iff h
  refine ⟨⟨fun hk => ?_, ?_⟩, ?_, ?_⟩
  · cases hkeep : w.recv.keepalive with
    | none => exact .inl (htask.mpr hkeep)
    | running => exact absurd hkeep hk
    | aborted =>
      have hinit : (PullState.init rq).recv.keepalive ≠ .aborted := by
        simp [PullState.init, RecvState.init]
      exact .inr (leavesLoop_of_aborted h hinit hkeep)
  · rintro (hnone | hleft)
    · rw [htask.mp hnone]
      simp
    · exact released_of_leavesLoop hleft
  · intro hsilent
    by_contra hcon
    rw [not_or, not_not] at hcon
    obtain ⟨hk, hover⟩ := hcon
    obtain ⟨task, ht⟩ : ∃ task, w.task = some task := by
      cases ht : w.task with
      | none => rw [htask.mp ht] at hk; cases hk
      | some task => exact ⟨task, rfl⟩
    have ho : task.ended = false := by
      by_contra ho
      exact hover ⟨task, ht, by simpa using ho⟩
    exact hsilent _ w (.cons (.sent hk ht ho) .nil) _ _ List.mem_cons_self
  · intro hstop acts' w' hrun port dgram hmem
    -- The transfer has returned and the task has stopped: no step is left.
    have stopped : ∀ {task : KeepaliveTask}, w.recv.keepalive = .running → w.task = some task →
        task.ended = true := by
      intro task hk ht
      obtain ⟨task', ht', ho⟩ := hstop.resolve_left fun hn => hn hk
      cases ht.symm.trans ht'
      exact ho
    cases hrun with
    | nil => cases hmem
    | cons hst _ =>
      cases hst with
      | spawn hpc => rw [hr] at hpc; cases hpc
      | transfer hst => exact hst.not_returned r hr
      | sent hk ht ho | wouldBlock hk ht ho | sendFail hk ht ho =>
        rw [stopped hk ht] at ho
        cases ho

theorem PullStep.act {w : PullState rq} {s' : RecvState rq} {a : Act Frame}
    (h : RecvStep sha plane (fun _ _ _ _ => none) w.recv a s')
    (hk : s'.keepalive = w.recv.keepalive) :
    PullStep sha plane w (.transfer a) { w with recv := s' } :=
  .transfer h fun hr => hk.symm.trans hr

/-- The transfer's state after a Hello of pull mode. -/
def helloExample : RecvState .repetition :=
  { RecvState.init .repetition with pc := .bind 7 (some 9000) }

/-- The same after the flow is opened to port 9000. -/
def openedExample : RecvState .repetition :=
  { helloExample with
    udpPort := some 4000
    flowTo := some 9000
    keepalive := .running
    pc := .helloAck 7 none }

theorem helloExample_step : PullStep .identity .plain (.init .repetition)
    (.transfer (.read (.hello version 7 (some 9000)))) ⟨helloExample, none⟩ :=
  .act (.hello rfl) rfl

/-- A file of 72 bytes, in one block and one symbol. -/
def pulledData : Octets := (List.range 72).map fun i => UInt8.ofNat (i + 1)

def pulledLayout : Layout := ⟨72, 72, 72, 1, by decide, by decide, by decide, by decide⟩

def pulledDatagram (i : Fin 2) : Octets :=
  let p : EncodingPacket := ⟨0, i, pulledData, by omega⟩
  Datagram.encode 7 0 (p.payloadId ++ p.data)

theorem pulled_collected : ∃ c₁ c₂ : Collect .repetition,
    (Collect.new .repetition .plain pulledLayout).onDatagram (fun _ _ _ _ => none) pulledLayout 7
      (pulledDatagram 0) .ok = .ok c₁ ∧
    c₁.onDatagram (fun _ _ _ _ => none) pulledLayout 7 (pulledDatagram 1) .ok = .ok c₂ ∧
    c₂.ioErr = false ∧ c₂.pendingAcks = [0] ∧ c₂.decoded = 1 ∧ c₂.file = pulledData := by
  have h : (do
      let c₁ ← (Collect.new .repetition .plain pulledLayout).onDatagram (fun _ _ _ _ => none)
        pulledLayout 7 (pulledDatagram 0) .ok
      let c₂ ← c₁.onDatagram (fun _ _ _ _ => none) pulledLayout 7 (pulledDatagram 1) .ok
      return decide (c₂.ioErr = false ∧ c₂.pendingAcks = [0] ∧ c₂.decoded = 1 ∧
        c₂.file = pulledData)) = (.ok true : Checked Bool) := by decide +kernel
  simp only [Checked.bind_eq_ok, Checked.pure_eq_ok, decide_eq_true_eq] at h
  obtain ⟨c₁, h₁, c₂, h₂, h⟩ := h
  exact ⟨c₁, c₂, h₁, h₂, h⟩

/-- The transfer of the file beside its task, after the handshake. -/
def pulledExample (pc : RecvPc) (keepalive : Keepalive) (col : Collect .repetition)
    (acks : List Frame) : PullState .repetition where
  recv := { openedExample with
    pc
    keepalive
    created := true
    live := some ⟨7, hexEncode pulledData, pulledLayout, col⟩
    wrote := [.helloAck none, .manifestAck] ++ acks }
  task := some ⟨9000, 7, false⟩

theorem pulledExample_reachable : ∃ acts,
    Runs.Trace (PullStep .identity .plain) (.init .repetition) acts
      (pulledExample .collect .running (.new .repetition .plain pulledLayout) []) ∧
    .flowOpen 9000 (Datagram.flowOpen 7) ∈ acts := by
  let task : KeepaliveTask := ⟨9000, 7, false⟩
  let acked : RecvState .repetition := openedExample.wroteTo (.helloAck none) (.manifest 7)
  have hopen : RecvStep .identity .plain (fun _ _ _ _ => none) helloExample .tau openedExample :=
    .bindPull rfl 4000
  have hack : PullStep .identity .plain ⟨openedExample, some task⟩
      (.transfer (.write (.helloAck none) true)) ⟨acked, some task⟩ := .act (.helloAck rfl) rfl
  have hsent : PullStep .identity .plain ⟨acked, some task⟩
      (.flowOpen task.port (Datagram.flowOpen task.tag)) ⟨acked, some task⟩ := .sent rfl rfl rfl
  have hmanifest : PullStep .identity .plain ⟨acked, some task⟩
      (.transfer (.read (.manifest "f" 72 (hexEncode pulledData) 72 72 1)))
      ⟨{ acked with pc := .create 7 ⟨hexEncode pulledData, pulledLayout⟩ }, some task⟩ :=
    .act (.manifest rfl) rfl
  have hack' : PullStep .identity .plain
      { pulledExample .manifestAck .running (.new .repetition .plain pulledLayout) [] with
        recv.wrote := [.helloAck none] }
      (.transfer (.write .manifestAck true))
      (pulledExample .collect .running (.new .repetition .plain pulledLayout) []) :=
    .act (.manifestAck rfl) rfl
  exact ⟨_, .cons helloExample_step (.cons (.spawn rfl hopen rfl) (.cons hack (.cons hsent
    (.cons hmanifest (.cons (.act (.create rfl) rfl) (.cons hack' .nil)))))), by simp [task]⟩

theorem pulledExample_collected : ∃ acts c,
    Runs.Trace (PullStep .identity .plain) (.init .repetition) acts
      (pulledExample .collect .running c [.blockDecoded 0]) ∧
    .flowOpen 9000 (Datagram.flowOpen 7) ∈ acts ∧ c.decoded = 1 ∧ c.file = pulledData := by
  obtain ⟨c₁, c₂, hc₁, hc₂, hio, hacks, hdec, hfile⟩ := pulled_collected
  obtain ⟨acts, h, hsent⟩ := pulledExample_reachable
  have h₁ : Runs.Trace (PullStep .identity .plain) _ _ (pulledExample .batch .running _ []) :=
    h.concat (.act (.batch rfl rfl (by decide)) rfl)
  have h₂ := h₁.concat (.act (.datagram rfl rfl _ _ hc₁) rfl)
  have h₃ := h₂.concat (.act (.datagram rfl rfl _ _ hc₂) rfl)
  have h₄ : Runs.Trace (PullStep .identity .plain) _ _ (pulledExample .acks .running c₂ []) :=
    h₃.concat (.act (.batchEnd rfl rfl hio) rfl)
  have hack : RecvStep .identity .plain (fun _ _ _ _ => none)
      (pulledExample .acks .running c₂ []).recv (.write (.blockDecoded 0) true) _ :=
    .ack rfl rfl hacks
  have h₅ := h₄.concat (.act hack rfl)
  have h₆ := h₅.concat (.act (.acked rfl rfl rfl) rfl)
  exact ⟨_, { c₂ with pendingAcks := [] }, h₆, by simp [hsent], hdec, hfile⟩

/-- A whole pull: the task opens the flow, and is aborted as the loop is left. -/
theorem keepalive_released_aborted : ∃ acts w,
    Runs.Trace (PullStep .identity .plain) (.init .repetition) acts w ∧
    .flowOpen 9000 (Datagram.flowOpen 7) ∈ acts ∧ w.recv.pc = .returned (.ok ()) ∧
    w.recv.keepalive ≠ .running ∧
    ∀ acts' w', Runs.Trace (PullStep .identity .plain) w acts' w' →
      ∀ port dgram, .flowOpen port dgram ∉ acts' := by
  obtain ⟨acts, c, h, hsent, hdec, hfile⟩ := pulledExample_collected
  let reported : RecvState .repetition :=
    { (pulledExample .report .aborted c [.blockDecoded 0]).recv with
      actual := some (sha256File .identity [pulledData]) }
  have hsha : sha256File .identity [pulledData] = hexEncode pulledData := by decide +kernel
  have hreads : ReadsOf c.file [pulledData] := by
    rw [hfile]
    exact ⟨rfl, by simp [pulledData]⟩
  have hout : RecvStep .identity .plain (fun _ _ _ _ => none)
      (pulledExample .collect .running c [.blockDecoded 0]).recv .tau
      (pulledExample .sync .aborted c [.blockDecoded 0]).recv :=
    .leave rfl rfl (by simp [hdec, pulledLayout])
  have hleave : PullStep .identity .plain (pulledExample .collect .running c [.blockDecoded 0])
      (.transfer .tau) (pulledExample .sync .aborted c [.blockDecoded 0]) :=
    .transfer hout (by simp [pulledExample])
  have hsync : PullStep .identity .plain (pulledExample .sync .aborted c [.blockDecoded 0])
      (.transfer .tau) (pulledExample .hash .aborted c [.blockDecoded 0]) := .act (.sync rfl) rfl
  have hhash : PullStep .identity .plain (pulledExample .hash .aborted c [.blockDecoded 0])
      (.transfer .tau) ⟨reported, some ⟨9000, 7, false⟩⟩ := .act (.hash rfl rfl _ hreads) rfl
  have hdone : RecvStep .identity .plain (fun _ _ _ _ => none) reported (.write _ true) _ :=
    .done rfl rfl rfl
  simp only [hsha, verdict_eq_none.mpr, beq_self_eq_true] at hdone
  have hend := PullStep.act (w := ⟨reported, some ⟨9000, 7, false⟩⟩) hdone rfl
  have hall := (((h.concat hleave).concat hsync).concat hhash).concat hend
  have hreleased := keepalive_released_iff hall rfl
  have hk := hreleased.1.mpr (.inr ⟨acts, _, [_, _, _], _, _, by simp, h, rfl, hleave, rfl,
    .cons hsync (.cons hhash (.cons hend .nil))⟩)
  exact ⟨_, _, hall, by simp [hsent], rfl, hk, hreleased.2.mpr (.inl hk)⟩

/-- A Hello of pull mode, and the control connection breaks after HelloAck: the
transfer has returned, and its task sends one more flow-open. -/
theorem keepalive_outlives : ∃ acts w,
    Runs.Trace (PullStep .identity .plain) (.init .repetition) acts w ∧
    w.recv.pc = .returned (.error .io) ∧ w.recv.keepalive = .running ∧
    PullStep .identity .plain w (.flowOpen 9000 (Datagram.flowOpen 7)) w := by
  let task : KeepaliveTask := ⟨9000, 7, false⟩
  let acked : RecvState .repetition := openedExample.wroteTo (.helloAck none) (.manifest 7)
  have hopen : RecvStep .identity .plain (fun _ _ _ _ => none) helloExample .tau openedExample :=
    .bindPull rfl 4000
  have hack : PullStep .identity .plain ⟨openedExample, some task⟩
      (.transfer (.write (.helloAck none) true)) ⟨acked, some task⟩ := .act (.helloAck rfl) rfl
  have hfail : PullStep .identity .plain ⟨acked, some task⟩ (.transfer .readFail)
      ⟨acked.fail .io, some task⟩ := .act (.readFail rfl) rfl
  have hsent : PullStep .identity .plain ⟨acked.fail .io, some task⟩
      (.flowOpen task.port (Datagram.flowOpen task.tag)) ⟨acked.fail .io, some task⟩ :=
    .sent rfl rfl rfl
  exact ⟨_, _, .cons helloExample_step (.cons (.spawn rfl hopen rfl) (.cons hack
    (.cons hfail .nil))), rfl, rfl, hsent⟩

end AtpExperiment
