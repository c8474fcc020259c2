/-
A sender and a receiver, joined by the control stream and a UDP path.

The control stream is reliable and ordered, and may be cut at any point. The
UDP path delivers whatever it likes: the datagrams of the receiver's steps are
arbitrary. What ties it to the sender is the AEAD alone, which may depend on
the seal calls made so far (`aead`); results say what they assume of it.

`Session.Inv` is the invariant of every interleaving: both ends hold the same
layout and hash, and everything the sender has heard is a frame the receiver
wrote. `connected_reachable`: on every session the handshake can succeed.
-/
import AtpExperiment.RecvFacts
import AtpExperiment.SealedRun
import AtpExperiment.SendFeedback

namespace AtpExperiment

open Octets Aead Duplex

variable {rq : Raptorq}

/-- The two ends of a transfer: the hash, the AEAD under the session's key,
and what the sender was called with. The manifest's hash is that of the data
(`prepare`), and a sealed plane is new. -/
structure Session where
  sha : Sha256
  enc : Encrypt
  /-- What opens after the given seal calls. -/
  aead : List Sealed → Decrypt
  cfg : SendCfg
  digest : cfg.sha256 = hexEncode (sha.digest cfg.data)
  fresh : cfg.plane = .plain ∨ cfg.plane = .sealed .new

/-- What `send::run` computes is a session's: the layout fits the data, and the
hash is its digest. -/
theorem prepare_ok {sha : Sha256} {data : Octets} {blockSize : UInt32} {symbolSize : UInt16}
    {l : Layout} {sha256 : String} (hlen : data.length < 2 ^ 64)
    (h : prepare sha data blockSize symbolSize = .ok (.ok (l, sha256))) :
    data.length = l.fileSize.toNat ∧ sha256 = hexEncode (sha.digest data) := by
  unfold prepare at h
  split at h
  · cases h
  simp only [Checked.bind_eq_ok] at h
  obtain ⟨l', hl, h⟩ := h
  cases h
  rw [(Layout.new_eq_ok hl).1, UInt64.toNat_ofNat_of_lt' hlen]
  exact ⟨rfl, rfl⟩

/-- Both ends, the two directions of the control stream, and the seal calls. -/
structure Sys (rq : Raptorq) where
  snd : SendState rq
  rcv : RecvState rq
  toRecv : Pipe Frame
  toSend : Pipe Frame
  table : List Sealed

namespace Session

/-- The receiver's plane is in the mode of the sender's. -/
def rxPlane (S : Session) : RxPlane :=
  match S.cfg.plane with
  | .plain => .plain
  | .sealed _ => .sealed .new

/-- The control connection is up. -/
def start (rq : Raptorq) (S : Session) : Sys rq where
  snd := .init rq S.cfg
  rcv := .init rq
  toRecv := ⟨[], false⟩
  toSend := ⟨[], false⟩
  table := []

/-- One step of either end, or a cut. -/
inductive Step (S : Session) : Sys rq → Sys rq → Prop
  | send {s : Sys rq} {a : Act Frame} {e : Option Sealed} {snd : SendState rq} {i o : Pipe Frame}
      (h : SendStep S.enc S.cfg s.snd a e snd) (hio : Io a s.toSend s.toRecv i o) :
    Step S s { s with snd, toSend := i, toRecv := o, table := s.table ++ e.toList }
  | recv {s : Sys rq} {a : Act Frame} {rcv : RecvState rq} {i o : Pipe Frame}
      (h : RecvStep S.sha S.rxPlane (S.aead s.table) s.rcv a rcv)
      (hio : Io a s.toRecv s.toSend i o) :
    Step S s { s with rcv, toRecv := i, toSend := o }
  | cutToRecv {s : Sys rq} (n : Nat) : Step S s { s with toRecv := s.toRecv.cutAt n }
  | cutToSend {s : Sys rq} (n : Nat) : Step S s { s with toSend := s.toSend.cutAt n }

/-- Some interleaving leads to `s`. -/
def Reachable (S : Session) (s : Sys rq) : Prop := Runs.Reachable (· = S.start rq) S.Step s

end Session

/-! ## The handshake -/

/-- The tag the receiver holds before the file exists. -/
def RecvPc.tag : RecvPc → Option UInt64
  | .bind t _ | .helloAck t _ | .manifest t | .create t _ => some t
  | _ => none

/-- Rejecting another version. -/
def RecvPc.rejects : RecvPc → Bool
  | .reject _ => true
  | _ => false

/-- The receiver holds the sender's tag, hash and layout. -/
structure Agreed (cfg : SendCfg) (s : RecvState rq) : Prop where
  tag : ∀ t, s.pc.tag = some t → t = cfg.transferTag
  rejects : s.pc.rejects = false
  create : ∀ t m, s.pc = .create t m → m = ⟨cfg.sha256, cfg.layout⟩
  live : ∀ x, s.live = some x →
    x.transferTag = cfg.transferTag ∧ x.sha256 = cfg.sha256 ∧ x.layout = cfg.layout

theorem agreed_init (rq : Raptorq) (cfg : SendCfg) : Agreed cfg (RecvState.init rq) where
  tag t h := by cases h
  rejects := rfl
  create t m h := by cases h
  live x h := by cases h

theorem Agreed.of_live {cfg : SendCfg} {s : RecvState rq} (htag : s.pc.tag = none)
    (hr : s.pc.rejects = false) (hl : ∀ x, s.live = some x →
      x.transferTag = cfg.transferTag ∧ x.sha256 = cfg.sha256 ∧ x.layout = cfg.layout) :
    Agreed cfg s where
  tag t h := by rw [htag] at h; cases h
  rejects := hr
  create t m h := by rw [h] at htag; cases htag
  live := hl

section

variable {sha : Sha256} {plane : RxPlane} {dec : Decrypt} {cfg : SendCfg}

theorem LiveStep.agreed {s s' : RecvState rq} (h : LiveStep plane dec s s') (ha : Agreed cfg s) :
    ∀ x, s'.live = some x →
      x.transferTag = cfg.transferTag ∧ x.sha256 = cfg.sha256 ∧ x.layout = cfg.layout := by
  refine h.invariant _ ha.live ?_ ?_ ?_ ?_
  · intro t m hpc
    rw [ha.create t m hpc]
    exact ⟨ha.tag t (by rw [hpc]; rfl), rfl, rfl⟩
  · intro x c dgram _ _ hx
    exact hx
  · intro x b bs _ hx
    exact hx
  · intro x ticks hx
    exact hx

theorem Agreed.onHello {s : RecvState rq} {f : Frame} (ha : Agreed cfg s)
    (hf : f = cfg.hello ∨ f = cfg.manifest) : Agreed cfg { s with pc := onHello f } := by
  rcases hf with rfl | rfl
  · refine ⟨fun t h => ?_, rfl, fun t m h => ?_, ha.live⟩
    · simpa [AtpExperiment.onHello, SendCfg.hello, RecvPc.tag, eq_comm] using h
    · simp [AtpExperiment.onHello, SendCfg.hello] at h
  · exact .of_live rfl rfl ha.live

theorem Agreed.onManifest {s : RecvState rq} {t : UInt64} {f : Frame} (ha : Agreed cfg s)
    (hpc : s.pc = .manifest t) (hf : f = cfg.hello ∨ f = cfg.manifest) :
    Agreed cfg { s with pc := onManifest t f } := by
  obtain rfl : t = cfg.transferTag := ha.tag t (by rw [hpc]; rfl)
  rcases onManifest_cases cfg.transferTag f with
    ⟨m, _, _, _, _, _, hman, hnew, he⟩ | ⟨e, he⟩ | he
  · rcases hf with hf | hf
    · cases hman.symm.trans hf
    · simp only [hf, SendCfg.manifest, Frame.manifest.injEq] at hman
      obtain ⟨-, rfl, hsha, rfl, rfl, -⟩ := hman
      have hm : m = ⟨cfg.sha256, cfg.layout⟩ := by
        rw [Layout.new_self, Except.ok.injEq] at hnew
        rw [hsha, hnew]
      rw [he, hm]
      exact ⟨fun t h => (Option.some.inj h).symm, rfl, fun t m' h => (RecvPc.create.inj h).2.symm,
        ha.live⟩
  · rw [he]
    exact .of_live rfl rfl ha.live
  · rw [he]
    exact .of_live rfl rfl ha.live

/-- Reading only what the sender writes, the receiver agrees with it. -/
theorem RecvStep.agreed {s s' : RecvState rq} {a : Act Frame} (h : RecvStep sha plane dec s a s')
    (ha : Agreed cfg s) (hread : ∀ f, a = .read f → f = cfg.hello ∨ f = cfg.manifest) :
    Agreed cfg s' := by
  have hlive := h.live.agreed ha
  cases h with
  | hello => exact ha.onHello (hread _ rfl)
  | manifest h => exact ha.onManifest h (hread _ rfl)
  | bindPush h | bindPull h =>
    have ht := ha.tag _ (show s.pc.tag = some _ by rw [h]; rfl)
    exact ⟨fun t h => Option.some.inj h ▸ ht, rfl, fun _ _ h => RecvPc.noConfusion h, hlive⟩
  | @helloAck _ _ ok h =>
    have ht := ha.tag _ (show s.pc.tag = some _ by rw [h]; rfl)
    cases ok with
    | true =>
      exact ⟨fun t h => Option.some.inj h ▸ ht, rfl, fun _ _ h => RecvPc.noConfusion h, hlive⟩
    | false => exact .of_live rfl rfl hlive
  | @manifestAck ok | @ack _ _ _ ok | @tick _ _ _ _ _ _ _ ok | @done _ _ ok =>
    cases ok <;> exact .of_live rfl rfl hlive
  | datagram h | tickQuiet h =>
    exact .of_live (by simp [RecvState.setCol, h, RecvPc.tag])
      (by simp [RecvState.setCol, h, RecvPc.rejects]) hlive
  | _ => exact .of_live rfl rfl hlive

end

/-! ## The joint invariant -/

namespace Session

/-- What holds in every state of every interleaving. -/
structure Inv (S : Session) (s : Sys rq) : Prop where
  recv : RecvInv S.sha s.rcv
  rounds : RoundInv S.cfg s.snd
  toRecv : ∀ f ∈ s.toRecv.queue, f = S.cfg.hello ∨ f = S.cfg.manifest
  agreed : Agreed S.cfg s.rcv
  fed : ∀ x, s.rcv.live = some x → x.col.Fed x.layout fun _ _ => True
  /-- What the sender has heard, the receiver wrote. -/
  toSend : ∀ f ∈ s.toSend.queue, f ∈ s.rcv.wrote
  chan : ∀ m ∈ s.snd.chan, ∀ f, m.source = some f → f ∈ s.rcv.wrote
  acked : ∀ b : UInt32, s.snd.v.acked[b.toNat]? = some true → .blockDecoded b ∈ s.rcv.wrote
  returned : s.snd.pc = .returned (.ok ()) → ∃ e, .done true e ∈ s.rcv.wrote

theorem inv_start (rq : Raptorq) (S : Session) : S.Inv (S.start rq) where
  recv := recvInv_init S.sha
  rounds := roundInv_init S.cfg
  toRecv f h := by cases h
  agreed := agreed_init rq S.cfg
  fed x h := by cases h
  toSend f h := by cases h
  chan m h := by cases h
  acked b h := by
    simp only [start, SendState.init, Spray.new, List.getElem?_replicate] at h
    split at h <;> cases h
  returned h := by cases h

theorem inv_send {S : Session} {s : Sys rq} (hi : S.Inv s) {a : Act Frame} {e : Option Sealed}
    {snd : SendState rq} {i o : Pipe Frame} (h : SendStep S.enc S.cfg s.snd a e snd)
    (hio : Io a s.toSend s.toRecv i o) :
    S.Inv { s with snd, toSend := i, toRecv := o, table := s.table ++ e.toList } where
  recv := hi.recv
  rounds := h.roundInv hi.rounds
  toRecv f hf := by
    rcases hio.mem_out hf with hf | ⟨ok, rfl⟩
    · exact hi.toRecv f hf
    · exact h.writes
  agreed := hi.agreed
  fed := hi.fed
  toSend f hf := hi.toSend f (hio.mem_in hf)
  chan m hm f hf := by
    rcases h.chan hm hf with hm | rfl
    · exact hi.chan m hm f hf
    · exact hi.toSend f hio.read_mem
  acked b hb := by
    rcases h.acked hb with hb | hm
    · exact hi.acked b hb
    · exact hi.chan _ hm _ rfl
  returned hr := by
    rcases h.returned_ok hr with hr | ⟨e, hm⟩
    · exact hi.returned hr
    · exact ⟨e, hi.chan _ hm _ rfl⟩

theorem inv_recv {S : Session} {s : Sys rq} (hi : S.Inv s) {a : Act Frame} {rcv : RecvState rq}
    {i o : Pipe Frame} (h : RecvStep S.sha S.rxPlane (S.aead s.table) s.rcv a rcv)
    (hio : Io a s.toRecv s.toSend i o) : S.Inv { s with rcv, toRecv := i, toSend := o } where
  recv := h.inv hi.recv
  rounds := hi.rounds
  toRecv f hf := hi.toRecv f (hio.mem_in hf)
  agreed := h.agreed hi.agreed fun f hf => by subst hf; exact hi.toRecv f hio.read_mem
  fed := by
    refine h.live.invariant (fun x => x.col.Fed x.layout fun _ _ => True) hi.fed ?_ ?_ ?_ ?_
    · intro t m _
      exact Collect.fed_new rq _ _ _
    · intro x c dgram _ hm hf
      exact hm.fed_inv hf fun _ => trivial
    · intro x b bs _ hf
      exact ⟨hf.pending, hf.writes⟩
    · intro x ticks hf
      exact ⟨hf.pending, hf.writes⟩
  toSend f hf := h.wrote_mono ((hio.mem_out hf).imp_left (hi.toSend f))
  chan m hm f hf := h.wrote_mono (.inl (hi.chan m hm f hf))
  acked b hb := h.wrote_mono (.inl (hi.acked b hb))
  returned hr := by
    obtain ⟨e, he⟩ := hi.returned hr
    exact ⟨e, h.wrote_mono (.inl he)⟩

theorem Reachable.inv {S : Session} {s : Sys rq} (h : S.Reachable s) : S.Inv s := by
  refine Runs.Reachable.invariant h S.Inv ?_ fun s t hi hst => ?_
  · intro s he
    subst he
    exact inv_start rq S
  · cases hst with
    | send h hio => exact inv_send hi h hio
    | recv h hio => exact inv_recv hi h hio
    | cutToRecv n => exact { hi with toRecv := fun f hf => hi.toRecv f (Pipe.mem_cutAt hf) }
    | cutToSend n => exact { hi with toSend := fun f hf => hi.toSend f (Pipe.mem_cutAt hf) }

/-! ## A handshake that succeeds -/

theorem Reachable.send {S : Session} {s : Sys rq} (h : S.Reachable s) {a : Act Frame}
    {e : Option Sealed} {snd : SendState rq} {i o : Pipe Frame}
    (hs : SendStep S.enc S.cfg s.snd a e snd) (hio : Io a s.toSend s.toRecv i o) :
    S.Reachable { s with snd, toSend := i, toRecv := o, table := s.table ++ e.toList } :=
  Runs.Reachable.next h (.send hs hio)

theorem Reachable.recv {S : Session} {s : Sys rq} (h : S.Reachable s) {a : Act Frame}
    {rcv : RecvState rq} {i o : Pipe Frame}
    (hs : RecvStep S.sha S.rxPlane (S.aead s.table) s.rcv a rcv)
    (hio : Io a s.toRecv s.toSend i o) :
    S.Reachable { s with rcv, toRecv := i, toSend := o } :=
  Runs.Reachable.next h (.recv hs hio)

/-- The handshake is over, in push mode: the receiver waits for datagrams and
the sender is about to spray. -/
def connected (rq : Raptorq) (S : Session) (port : UInt16) : Sys rq where
  snd := { SendState.init rq S.cfg with pc := .drain .top, reader := .running }
  rcv := { RecvState.init rq with
    pc := .collect
    udpPort := some port
    created := true
    live := some ⟨S.cfg.transferTag, S.cfg.sha256, S.cfg.layout, .new rq S.rxPlane S.cfg.layout⟩
    wrote := [.helloAck (some port), .manifestAck] }
  toRecv := ⟨[], false⟩
  toSend := ⟨[], false⟩
  table := []

theorem onHello_push {cfg : SendCfg} (hp : cfg.rendezvous = .push) :
    onHello cfg.hello = .bind cfg.transferTag none := by
  simp [onHello, SendCfg.hello, hp]

theorem onManifest_self (cfg : SendCfg) (t : UInt64) :
    onManifest t cfg.manifest = .create t ⟨cfg.sha256, cfg.layout⟩ := by
  have hf : ¬ (cfg.layout.fileSize = 0 ∨ cfg.layout.blockSize = 0 ∨ cfg.layout.symbolSize = 0) := by
    have h₁ := cfg.layout.file_pos
    have h₂ := cfg.layout.block_pos
    have h₃ := cfg.layout.symbol_pos
    intro hx
    rcases hx with h | h | h <;> simp [h] at h₁ h₂ h₃
  simp only [onManifest, SendCfg.manifest, acceptManifest, if_neg hf, Layout.new_self,
    Checked.ok_bind, ne_eq, not_true_eq_false, if_false]
  rfl

/-- A state of the handshake in push mode. -/
def shaking (rq : Raptorq) (S : Session) (spc : SendPc) (rpc : RecvPc) (port : Option UInt16)
    (wrote toRecv toSend : List Frame) : Sys rq where
  snd := { SendState.init rq S.cfg with pc := spc }
  rcv := { RecvState.init rq with pc := rpc, udpPort := port, wrote }
  toRecv := ⟨toRecv, false⟩
  toSend := ⟨toSend, false⟩
  table := []

theorem connected_reachable (rq : Raptorq) (S : Session) (hp : S.cfg.rendezvous = .push)
    (port : UInt16) : S.Reachable (S.connected rq port) := by
  let t := S.cfg.transferTag
  have h₀ : S.Reachable (S.start rq) := .start rfl
  have h₁ : S.Reachable (S.shaking rq .helloAck .hello none [] [S.cfg.hello] []) :=
    h₀.send (a := .write _ true) (.hello rfl) (.write rfl)
  have h₂ : S.Reachable (S.shaking rq .helloAck (onHello S.cfg.hello) none [] [] []) :=
    h₁.recv (.hello rfl) (.read rfl)
  rw [onHello_push hp] at h₂
  have h₃ : S.Reachable (S.shaking rq .helloAck (.helloAck t (some port)) (some port) [] [] []) :=
    h₂.recv (.bindPush rfl port) .tau
  have h₄ : S.Reachable (S.shaking rq .helloAck (.manifest t) (some port) [.helloAck (some port)] []
      [.helloAck (some port)]) := h₃.recv (a := .write _ true) (.helloAck rfl) (.write rfl)
  have h₅ : S.Reachable (S.shaking rq (.manifest (some port)) (.manifest t) (some port)
      [.helloAck (some port)] [] []) := h₄.send (.helloAck rfl) (.read rfl)
  have h₆ : S.Reachable (S.shaking rq (.manifestAck (some port)) (.manifest t) (some port)
      [.helloAck (some port)] [S.cfg.manifest] []) :=
    h₅.send (a := .write _ true) (.manifest rfl) (.write rfl)
  have h₇ : S.Reachable (S.shaking rq (.manifestAck (some port)) (onManifest t S.cfg.manifest)
      (some port) [.helloAck (some port)] [] []) := h₆.recv (.manifest rfl) (.read rfl)
  rw [onManifest_self] at h₇
  have h₈ := h₇.recv (.create rfl) .tau
  have h₉ := h₈.recv (a := .write _ true) (.manifestAck rfl) (.write rfl)
  have h₁₀ := h₉.send (.manifestAck rfl) (.read rfl)
  exact h₁₀.send (.openPush rfl hp) .tau

/-! ## A transfer that succeeds

Two of the three packets of the tiny file's first turn arrive. -/

/-- The tiny file, sealed. -/
def tiny : Session where
  sha := .identity
  enc := SealedRun.xorCipher
  aead := decryptTable
  cfg := tinyCfg (.sealed .new) (hexEncode tinyData) 200
  digest := rfl
  fresh := .inr rfl

/-- The packets of its first turn. -/
def tinyPkt (i : Fin 3) : EncodingPacket := ⟨0, i, tinyData, by omega⟩

theorem tiny_repairCount : (Spray.new .repetition tiny.cfg).repairCount tiny.cfg 2 = .ok 2 :=
  Spray.repairCount_first rfl rfl rfl (by decide)

/-- The sender's locals in its first turn. -/
def tinySpray : Spray .repetition :=
  { Spray.new .repetition tiny.cfg with
    encoders := [(0, tinyData)]
    nextRepair := [2] }

set_option maxRecDepth 4000 in
theorem tiny_startTurn : (Spray.new .repetition tiny.cfg).startTurn tiny.cfg 0 =
    .ok ([tinyPkt 0, tinyPkt 1, tinyPkt 2], tinySpray) := by
  have hk : tiny.cfg.layout.sourceSymbols 0 = .ok 2 := rfl
  simp only [Spray.startTurn, hk, Checked.ok_bind, tiny_repairCount]
  rfl

/-- A packet sealed under number `q`. -/
def tinySeal (q : UInt64) (p : EncodingPacket) : SealOut :=
  sealDatagram tiny.enc ⟨q⟩ 7 0 (p.payloadId ++ p.data)

/-- The seal calls of the turn. -/
def tinyTable : List Sealed :=
  (tinySeal 0 (tinyPkt 0)).sealed.toList ++ (tinySeal 1 (tinyPkt 1)).sealed.toList ++
    (tinySeal 2 (tinyPkt 2)).sealed.toList

/-- Of the block's packets the last comes before the first, and the other not at
all: a tick between them reports one packet of three, and the second completes the
file. -/
theorem tiny_delivered : ∃ c₁ c₂ : Collect .repetition,
    (Collect.new .repetition (.sealed .new) tiny.cfg.layout).onDatagram (decryptTable tinyTable)
      tiny.cfg.layout 7 (tinySeal 2 (tinyPkt 2)).out .ok = .ok c₁ ∧
    c₁.onDatagram (decryptTable tinyTable) tiny.cfg.layout 7 (tinySeal 0 (tinyPkt 0)).out .ok =
      .ok c₂ ∧
    (c₁.ioErr = false ∧ c₁.pendingAcks = [] ∧ c₁.decoded = 0 ∧ c₁.ticks = 0 ∧
      c₁.report 5 = .ok (some (.progress 1 (some 3) 5))) ∧
    c₂.ioErr = false ∧ c₂.pendingAcks = [0] ∧ c₂.decoded = 1 ∧ c₂.file = tinyData := by
  have h : (do
      let c₁ ← (Collect.new .repetition (.sealed .new) tiny.cfg.layout).onDatagram
        (decryptTable tinyTable) tiny.cfg.layout 7 (tinySeal 2 (tinyPkt 2)).out .ok
      let c₂ ← c₁.onDatagram (decryptTable tinyTable) tiny.cfg.layout 7
        (tinySeal 0 (tinyPkt 0)).out .ok
      return decide ((c₁.ioErr = false ∧ c₁.pendingAcks = [] ∧ c₁.decoded = 0 ∧ c₁.ticks = 0 ∧
          c₁.report 5 = .ok (some (.progress 1 (some 3) 5))) ∧
        c₂.ioErr = false ∧ c₂.pendingAcks = [0] ∧ c₂.decoded = 1 ∧
        c₂.file = tinyData)) = (.ok true : Checked Bool) := by decide +kernel
  simp only [Checked.bind_eq_ok, Checked.pure_eq_ok, decide_eq_true_eq] at h
  obtain ⟨c₁, h₁, c₂, h₂, h⟩ := h
  exact ⟨c₁, c₂, h₁, h₂, h⟩

/-- The sender after its turn, and a receiver with `col`. -/
def tinySys (v : Spray .repetition) (turns : List Turn) (pc : RecvPc) (col : Collect .repetition)
    (acks : List Frame) : Sys .repetition where
  snd := ⟨.drain (.turn []), v, .running, [], turns⟩
  rcv := { (connected .repetition tiny 9).rcv with
    pc
    live := some ⟨7, tiny.cfg.sha256, tiny.cfg.layout, col⟩
    wrote := [.helloAck (some 9), .manifestAck] ++ acks }
  toRecv := ⟨[], false⟩
  toSend := ⟨acks, false⟩
  table := tinyTable

set_option maxRecDepth 4000 in
theorem tiny_packets : ∃ v turns, v.acked = [false] ∧ v.ackedCount = 0 ∧
    v.pacer = .newBps Rate.startRateBps ∧ v.batch.length ≤ maxGsoBytes ∧ tiny.Reachable
      ⟨⟨.flushTail [], v, .running, [], turns⟩, (connected .repetition tiny 9).rcv, ⟨[], false⟩,
        ⟨[], false⟩, tinyTable⟩ := by
  have h := connected_reachable .repetition tiny rfl 9
  have h₁ := h.send (.drainEmpty rfl rfl (by decide)) .tau
  have h₂ := h₁.send (.selectBlocks rfl (by simp; exact ⟨by decide, rfl⟩)) .tau
  have h₃ : tiny.Reachable ⟨⟨.packets 0 [tinyPkt 0, tinyPkt 1, tinyPkt 2] [], tinySpray, .running,
      [], [⟨0, 0, [tinyPkt 0, tinyPkt 1, tinyPkt 2]⟩]⟩, (connected .repetition tiny 9).rcv,
      ⟨[], false⟩, ⟨[], false⟩, []⟩ := h₂.send (.turn rfl (by decide) tiny_startTurn) .tau
  have h₄ := h₃.send (.queued rfl (by rfl)) .tau
  have h₅ := h₄.send (.queued rfl (by rfl)) .tau
  have h₆ := h₅.send (.queued rfl (by rfl)) .tau
  have h₇ := h₆.send (.packetsEnd rfl) .tau
  refine ⟨_, _, ?_, ?_, ?_, ?_, h₇⟩
  · rfl
  · rfl
  · rfl
  · decide +kernel

theorem tiny_sprayed : ∃ v turns, v.acked = [false] ∧ v.ackedCount = 0 ∧ tiny.Reachable
    (tinySys v turns .collect (.new .repetition (.sealed .new) tiny.cfg.layout) []) := by
  obtain ⟨v, turns, ha, hn, hp, hlen, h⟩ := tiny_packets
  obtain ⟨pacer, hv⟩ := Spray.flushed_first hp hlen
  have h' := h.send (.flushTail rfl 0 false nofun hv) .tau
  refine ⟨_, _, ?_, ?_, h'⟩
  · exact ha
  · exact hn

theorem tiny_ticked : ∃ s : Sys .repetition, tiny.Reachable s ∧
    s.rcv.reports.map Report.frame = [.progress 1 (some 3) 5] := by
  obtain ⟨v, turns, -, -, h⟩ := tiny_sprayed
  obtain ⟨c₁, -, hc₁, -, ⟨hio, hacks, hdec, hticks, hrep⟩, -⟩ := tiny_delivered
  have h₁ := h.recv (.batch rfl rfl (by decide)) .tau
  have h₂ := h₁.recv (.datagram rfl rfl _ _ hc₁) .tau
  have h₃ : tiny.Reachable (tinySys v turns .acks c₁ []) := h₂.recv (.batchEnd rfl rfl hio) .tau
  have h₄ : tiny.Reachable (tinySys v turns .collect c₁ []) := h₃.recv (.acked rfl rfl hacks) .tau
  have hd : c₁.decoded < tiny.cfg.layout.numBlocks := by rw [hdec]; decide
  have hf := Collect.onTick_eq_ok.mpr ⟨hrep, 1, by rw [hticks]; rfl, rfl⟩
  have h₅ := h₄.recv (a := .write _ true) (.tick rfl rfl hd 5 hf) (.write rfl)
  exact ⟨_, h₅, rfl⟩

theorem tiny_collected : ∃ v turns c, v.acked = [false] ∧ v.ackedCount = 0 ∧
    c.file = tinyData ∧ c.ioErr = false ∧
    tiny.Reachable (tinySys v turns .sync c [.blockDecoded 0]) := by
  obtain ⟨v, turns, hv, hn, h⟩ := tiny_sprayed
  obtain ⟨c₁, c₂, hc₁, hc₂, -, hio, hacks, hdec, hfile⟩ := tiny_delivered
  have h₁ := h.recv (.batch rfl rfl (by decide)) .tau
  have h₂ := h₁.recv (.datagram rfl rfl _ _ hc₁) .tau
  have h₃ := h₂.recv (.datagram rfl rfl _ _ hc₂) .tau
  have h₄ : tiny.Reachable (tinySys v turns .acks c₂ []) := h₃.recv (.batchEnd rfl rfl hio) .tau
  have h₅ := h₄.recv (a := .write _ true) (.ack rfl rfl hacks) (.write rfl)
  have h₆ : tiny.Reachable
      (tinySys v turns .collect { c₂ with pendingAcks := [] } [.blockDecoded 0]) :=
    h₅.recv (.acked rfl rfl rfl) .tau
  have hd : ¬ c₂.decoded < tiny.cfg.layout.numBlocks := by rw [hdec]; decide
  have h₇ := h₆.recv (.leave rfl rfl hd) .tau
  exact ⟨v, turns, { c₂ with pendingAcks := [] }, hv, hn, hfile, hio, h₇⟩

/-- The transfer is over, and both ends return Ok. -/
theorem tiny_finished : ∃ s : Sys .repetition, tiny.Reachable s ∧
    s.snd.pc = .returned (.ok ()) ∧ s.rcv.pc = .returned (.ok ()) ∧
    s.snd.v.acked[(0 : UInt32).toNat]? = some true := by
  obtain ⟨v, turns, c, hv, hn, hfile, -, h⟩ := tiny_collected
  have hreads : ReadsOf c.file [tinyData] := by rw [hfile]; exact ⟨rfl, by simp [tinyData]⟩
  have h₁ := h.recv (.sync rfl) .tau
  have h₂ := h₁.recv (.hash rfl rfl _ hreads) .tau
  have h₃ := h₂.recv (a := .write _ true)
    (.done rfl rfl (show _ = some tiny.cfg.sha256 from rfl)) (.write rfl)
  simp only [beq_self_eq_true, verdict_eq_none.mpr] at h₃
  have h₄ := h₃.send (.readerRead rfl) (.read rfl)
  have h₅ := h₄.send (.readerRead rfl) (.read rfl)
  have hgo : v.onFeedback (.decoded 0) = .ok (.go { v with acked := [true], ackedCount := 1 }) := by
    simp [Spray.onFeedback, hv, hn]
    rfl
  have h₆ := h₅.send (.drainGo rfl rfl hgo) .tau
  have h₇ := h₆.send (.drainDone rfl rfl rfl) .tau
  exact ⟨_, h₇, rfl, rfl, rfl⟩

end Session

end AtpExperiment
