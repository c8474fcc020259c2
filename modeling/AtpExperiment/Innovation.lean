/-
What the receiver of a sealed session gains from each datagram.

The sender numbers its seal calls and never repeats a symbol id of a block; the
receiver's window lets every number in once. Joined (`Handed`): the datagrams that
open carry packets of the sender's turns, no symbol id of a block comes twice
(`accepted_symbols_fresh`), and every one of them brings its block nearer to its
file: as soon as the ids that came are enough for the code, the block is Done
(`fountain_complete`).
-/
import AtpExperiment.Integrity
import AtpExperiment.Ledger
import AtpExperiment.RepairIds

namespace AtpExperiment

open Octets Aead Duplex Sealed

variable {rq : Raptorq} {enc : Encrypt} {cfg : SendCfg}

/-! ## Records -/

theorem SealedAs.inj {e : Sealed} {t t' q q' : UInt64} {b b' : UInt32} {p p' : EncodingPacket}
    (h : SealedAs e t q b (p.payloadId ++ p.data))
    (h' : SealedAs e t' q' b' (p'.payloadId ++ p'.data)) : q = q' ∧ b = b' ∧ p = p' := by
  have hbody := h.plain.symm.trans h'.plain
  obtain ⟨hb, hp⟩ := sealBody_split b (p.payloadId ++ p.data)
  obtain ⟨hb', hp'⟩ := sealBody_split b' (p'.payloadId ++ p'.data)
  refine ⟨seqNonce_inj (h.nonce.symm.trans h'.nonce), ?_, ?_⟩
  · rw [← hb, hbody, hb']
  · have hpay : p.payloadId ++ p.data = p'.payloadId ++ p'.data := by rw [← hp, hbody, hp']
    have := p.deserialize_payload
    rw [hpay, p'.deserialize_payload] at this
    exact (Except.ok.inj this).symm

/-- Datagram `d` is the seal, under the number in its header, of a packet of a block. -/
def Carries (tag : UInt64) (table : List Sealed) (d : Octets) (y : UInt32 × EncodingPacket) :
    Prop :=
  ∃ e ∈ table, SealedAs e tag (wireSeq d) y.1 (y.2.payloadId ++ y.2.data) ∧
    d = header tag (wireSeq d) ++ e.cipher ++ e.tag

theorem Carries.mono {tag : UInt64} {table table' : List Sealed} {d : Octets}
    {y : UInt32 × EncodingPacket} (h : Carries tag table d y) (ht : table ⊆ table') :
    Carries tag table' d y := by
  obtain ⟨e, he, hs⟩ := h
  exact ⟨e, ht he, hs⟩

theorem SymbolOf.lt {b : UInt32} {p : EncodingPacket} (h : SymbolOf rq cfg b p) :
    b < cfg.layout.numBlocks := by
  obtain ⟨r, hr, -⟩ := h
  unfold Layout.range at hr
  by_cases hb : b < cfg.layout.numBlocks
  · exact hb
  · rw [if_neg hb] at hr
    cases hr

theorem SymbolOf.genuine {b : UInt32} {p : EncodingPacket} (h : SymbolOf rq cfg b p)
    (hb : b < cfg.layout.numBlocks) :
    rq.Genuine (cfg.layout.block cfg.data b) cfg.layout.symbolSize p := by
  obtain ⟨r, hr, hp⟩ := h
  cases (Layout.range_of_lt hb).symm.trans hr
  exact hp

/-- What opens carries the packet that comes out, a symbol of its block. -/
theorem open_carries {n : UInt64} {table : List Sealed} {w : ReplayWindow}
    {dgram payload : Octets} {b : UInt32} {plane : RxPlane} (ht : TableOf rq cfg n table)
    (h : (RxPlane.sealed w).open (decryptTable table) cfg.transferTag dgram =
      .ok (some (b, payload), plane)) :
    ∃ p, Carries cfg.transferTag table dgram (b, p) ∧ SymbolOf rq cfg b p ∧
      payload = p.payloadId ++ p.data := by
  obtain ⟨w', hw', rfl⟩ := RxPlane.open_sealed h
  obtain ⟨o⟩ := openDatagram_some hw'
  obtain ⟨e, he, hcipher, htag, hsame⟩ := o.sealedAs
  obtain ⟨q, hq, b', p, hp, hs⟩ := ht e he
  obtain ⟨-, rfl, rfl, rfl⟩ := hsame hs
  exact ⟨p, ⟨e, he, hs, by rw [hcipher, htag]; exact o.split⟩, hp, rfl⟩

/-! ## The sender's records -/

theorem SendState.put_of_segs {s s' : SendState rq} (h : s'.v.batchSegs = s.v.batchSegs) :
    put (s, s') = [] := by
  unfold put
  split
  · simp [h]
  · rfl

theorem Spray.sendPacket_segs {v : Spray rq} {b : UInt32} {p : EncodingPacket} {out : Sent rq}
    (h : v.sendPacket enc cfg b p = .ok out) :
    (∃ v' e, out = .queued v' e ∧ v'.batchSegs = v.batchSegs + 1) ∨
      (∀ v' e, out ≠ .queued v' e) ∧ out.locals.batchSegs = v.batchSegs := by
  obtain ⟨n, rng, -, rfl | he⟩ := sendPacket_cases h
  · exact .inr ⟨by simp, rfl⟩
  · rcases encodePacket_cases he with ⟨-, bytes, rfl⟩ | ⟨-, rfl⟩
    · exact .inl ⟨_, _, rfl, rfl⟩
    · exact .inr ⟨by simp, rfl⟩

/-- On the sealed plane a step either seals nothing and puts nothing into a
datagram, or puts one packet into a datagram under the next number. -/
theorem SendStep.seals {s s' : SendState rq} {a : Act Frame} {e : Option Sealed}
    (h : SendStep enc cfg s a e s') (hs : s.v.Synced) :
    (e = none ∧ SendState.put (s, s') = []) ∨
      ∃ b p x, e = some x ∧ SendState.put (s, s') = [(b, p)] ∧
        SealedAs x cfg.transferTag s.v.packetsSent b (p.payloadId ++ p.data) := by
  cases h with
  | @queued b p ps todo v sealed h hv =>
    obtain ⟨-, -, hrec⟩ := Spray.sendPacket_sealed hv hs
    rcases Spray.sendPacket_segs hv with ⟨v', e, hout, hsegs⟩ | ⟨hne, -⟩
    · cases hout
      obtain ⟨x, rfl, hx⟩ := hrec _ _ rfl
      exact .inr ⟨b, p, x, rfl, by simp [SendState.put, h, hsegs], hx⟩
    · exact absurd rfl (hne _ _)
  | dropped h hv | encodeFail h hv =>
    rcases Spray.sendPacket_segs hv with ⟨v', e, hout, -⟩ | ⟨-, hsegs⟩
    · cases hout
    · exact .inl ⟨rfl, SendState.put_of_segs hsegs⟩
  | drainGo h hm hv =>
    obtain ⟨_, _, _, _, _, rfl⟩ := Spray.onFeedback_frame hv
    exact .inl ⟨rfl, SendState.put_of_segs rfl⟩
  | turn h ha hv =>
    obtain ⟨_, _, rfl⟩ := Spray.startTurn_frame hv
    exact .inl ⟨rfl, SendState.put_of_segs rfl⟩
  | flush h | flushTail h => exact .inl ⟨rfl, by simp [SendState.put, h]⟩
  | _ => exact .inl ⟨rfl, SendState.put_of_segs rfl⟩

namespace Session

variable {S : Session}

/-- The packets put into datagrams, first to last, with the numbers they were
sealed under: every record of the AEAD is of one of them. -/
structure Numbering (S : Session) (s : Sys rq) (out : List (UInt64 × UInt32 × EncodingPacket)) :
    Prop where
  puts : Puts S.enc S.cfg s.snd (out.map Prod.snd)
  table : ∀ e ∈ s.table, ∃ y ∈ out,
    SealedAs e S.cfg.transferTag y.1 y.2.1 (y.2.2.payloadId ++ y.2.2.data)

theorem numbering_start (rq : Raptorq) (S : Session) : S.Numbering (S.start rq) [] where
  puts := .start rfl
  table e h := by cases h

theorem Numbering.send {s : Sys rq} {out : List (UInt64 × UInt32 × EncodingPacket)}
    (hn : S.Numbering s out) (hi : S.SealedInv s) {a : Act Frame} {e : Option Sealed}
    {snd : SendState rq} (h : SendStep S.enc S.cfg s.snd a e snd) (i o : Pipe Frame) :
    ∃ out, S.Numbering
      { s with snd, toSend := i, toRecv := o, table := s.table ++ e.toList } out := by
  have hputs := Runs.Emits.next hn.puts ⟨rfl, a, e, h⟩
  rcases h.seals hi.synced with ⟨rfl, hput⟩ | ⟨b, p, x, rfl, hput, hx⟩
  · rw [hput, List.append_nil] at hputs
    exact ⟨out, hputs, by simpa using hn.table⟩
  · refine ⟨out ++ [(s.snd.v.packetsSent, b, p)], ?_, fun e he => ?_⟩
    · rw [List.map_append, List.map_singleton, ← hput]
      exact hputs
    · rcases List.mem_append.mp he with he | he
      · obtain ⟨y, hy, hs⟩ := hn.table e he
        exact ⟨y, List.mem_append_left _ hy, hs⟩
      · obtain rfl : e = x := by simpa using he
        exact ⟨(s.snd.v.packetsSent, b, p), by simp, hx⟩

/-- The packets of the datagrams opened, each carried by its datagram, and every
block as if alone with its own. -/
structure Handed (S : Session) (table : List Sealed) (x : Live rq)
    (got : List (UInt32 × EncodingPacket)) : Prop where
  carried : List.Forall₂ (Carries S.cfg.transferTag table) x.col.opened got
  ledger : x.col.Ledger x.layout got

/-- What holds, with the rest, in every state of a sealed session. -/
structure InnovationInv (S : Session) (s : Sys rq) : Prop where
  numbered : ∃ out, S.Numbering s out
  handed : ∀ x, s.rcv.live = some x → ∃ got, S.Handed s.table x got

/-- A datagram that opens hands its block the packet it carries. -/
theorem Handed.moved {n : UInt64} {table : List Sealed} {x : Live rq} {c : Collect rq}
    {dgram : Octets} {got : List (UInt32 × EncodingPacket)} (h : S.Handed table x got)
    (ht : TableOf rq S.cfg n table) (hl : x.layout = S.cfg.layout)
    (hc : Measured n x.col)
    (hm : x.col.Moved (decryptTable table) x.layout S.cfg.transferTag dgram c) :
    ∃ got, S.Handed table { x with col := c } got := by
  rcases hm.ledger h.ledger with rfl | ⟨b, payload, plane, hopen, hopened, hledger⟩
  · exact ⟨got, h⟩
  · obtain ⟨w, hplane, -⟩ := hc.window
    rw [hplane] at hopen
    obtain ⟨p, hcarries, hp, rfl⟩ := open_carries ht hopen
    have hin : Collect.packetIn x.layout b (p.payloadId ++ p.data) = some (b, p) :=
      Collect.packetIn_of_lt (by rw [hl]; exact hp.lt) p.deserialize_payload
    rw [hin] at hledger
    refine ⟨got ++ [(b, p)], ?_, hledger⟩
    show List.Forall₂ _ c.opened _
    rw [hopened]
    exact List.rel_append h.carried (.cons hcarries .nil)

theorem Reachable.innovationInv (hp : S.cfg.plane = .sealed .new) (ha : S.aead = decryptTable)
    {s : Sys rq} (h : S.Reachable s) : S.InnovationInv s := by
  have hQ : ∀ s : Sys rq, S.Reachable s → S.Inv s ∧ S.SealedInv s :=
    fun s hs => ⟨hs.inv, hs.sealedInv hp ha⟩
  refine Runs.Reachable.invariant_of h hQ S.InnovationInv ?_ fun s t hq _ hi hst => ?_
  · intro s he
    subst he
    exact ⟨⟨[], numbering_start rq S⟩, fun x hx => by cases hx⟩
  · obtain ⟨hinv, hsealed⟩ := hq
    obtain ⟨out, hout⟩ := hi.numbered
    cases hst with
    | send h hio =>
      refine ⟨hout.send hsealed h _ _, fun x hx => ?_⟩
      obtain ⟨got, hg⟩ := hi.handed x hx
      exact ⟨got, hg.carried.imp fun _ _ hc => hc.mono (List.subset_append_left _ _), hg.ledger⟩
    | recv h hio =>
      refine ⟨⟨out, hout.puts, hout.table⟩, ?_⟩
      rw [ha] at h
      refine h.live.invariant (fun x => ∃ got, S.Handed s.table x got) hi.handed ?_ ?_ ?_ ?_
      · intro t m _
        exact ⟨[], .nil, Collect.ledger_new rq _ _⟩
      · rintro x c dgram hx hm ⟨got, hg⟩
        rw [(hinv.agreed.live x hx).1] at hm
        exact hg.moved hsealed.table (hinv.agreed.live x hx).2.2 (hsealed.measured x hx) hm
      · rintro x b bs - ⟨got, hg⟩
        exact ⟨got, hg.carried, hg.ledger.of_eq rfl rfl rfl⟩
      · rintro x ticks ⟨got, hg⟩
        exact ⟨got, hg.carried, hg.ledger.of_eq rfl rfl rfl⟩
    | cutToRecv n | cutToSend n =>
      exact ⟨⟨out, hout.puts, hout.table⟩, hi.handed⟩

/-! ## A run

The tiny file again, with a code whose symbols are numbered as the crate's: two of
the three packets of its first turn arrive. -/

end Session

/-- The stand-in `counted`, with a decoder that answers from the second symbol on. -/
def Raptorq.twofold : Raptorq :=
  { Raptorq.counted with
    Decoder := Bool
    newDecoder := fun _ => .ok false
    decode := fun d p => .ok (if d then some p.data else none, true) }

theorem Raptorq.numbered_twofold : twofold.Numbered where
  source := numbered_counted.source
  repair := numbered_counted.repair

namespace Session

variable {S : Session}

/-- The sender's locals in its first turn. -/
def twofoldSpray : Spray .twofold :=
  { Spray.new .twofold tiny.cfg with
    encoders := [(0, tinyData)]
    nextRepair := [2] }

set_option maxRecDepth 4000 in
theorem twofold_startTurn : (Spray.new .twofold tiny.cfg).startTurn tiny.cfg 0 =
    .ok ([tinyPkt 0, tinyPkt 1, tinyPkt 2], twofoldSpray) := by
  have hk : tiny.cfg.layout.sourceSymbols 0 = .ok 2 := rfl
  have hn : (Spray.new .twofold tiny.cfg).repairCount tiny.cfg 2 = .ok 2 :=
    Spray.repairCount_first rfl rfl rfl (by decide)
  simp only [Spray.startTurn, hk, Checked.ok_bind, hn]
  rfl

theorem twofold_delivered : ∃ c₁ c₂ : Collect .twofold,
    (Collect.new .twofold (.sealed .new) tiny.cfg.layout).onDatagram (decryptTable tinyTable)
      tiny.cfg.layout 7 (tinySeal 0 (tinyPkt 0)).out .ok = .ok c₁ ∧
    c₁.onDatagram (decryptTable tinyTable) tiny.cfg.layout 7 (tinySeal 1 (tinyPkt 1)).out .ok =
      .ok c₂ ∧
    (c₁.ioErr = false ∧ c₁.pendingAcks = [] ∧ c₁.decoded = 0 ∧ c₁.ticks = 0 ∧
      c₁.report 5 = .ok (some (.progress 1 (some 1) 5))) ∧
    c₂.ioErr = false ∧ c₂.opened.length = 2 := by
  have h : (do
      let c₁ ← (Collect.new .twofold (.sealed .new) tiny.cfg.layout).onDatagram
        (decryptTable tinyTable) tiny.cfg.layout 7 (tinySeal 0 (tinyPkt 0)).out .ok
      let c₂ ← c₁.onDatagram (decryptTable tinyTable) tiny.cfg.layout 7
        (tinySeal 1 (tinyPkt 1)).out .ok
      return decide ((c₁.ioErr = false ∧ c₁.pendingAcks = [] ∧ c₁.decoded = 0 ∧ c₁.ticks = 0 ∧
          c₁.report 5 = .ok (some (.progress 1 (some 1) 5))) ∧
        c₂.ioErr = false ∧ c₂.opened.length = 2)) = (.ok true : Checked Bool) := by
    decide +kernel
  simp only [Checked.bind_eq_ok, Checked.pure_eq_ok, decide_eq_true_eq] at h
  obtain ⟨c₁, h₁, c₂, h₂, h⟩ := h
  exact ⟨c₁, c₂, h₁, h₂, h⟩

/-- The sender after its turn, and a receiver with `col`. -/
def twofoldSys (v : Spray .twofold) (turns : List Turn) (pc : RecvPc) (col : Collect .twofold) :
    Sys .twofold where
  snd := ⟨.drain (.turn []), v, .running, [], turns⟩
  rcv := { (connected .twofold tiny 9).rcv with
    pc
    live := some ⟨7, tiny.cfg.sha256, tiny.cfg.layout, col⟩ }
  toRecv := ⟨[], false⟩
  toSend := ⟨[], false⟩
  table := tinyTable

set_option maxRecDepth 4000 in
theorem twofold_packets : ∃ v turns, v.loss = .new ∧
    v.ctrl = some (.new tiny.cfg.seg tiny.cfg.maxRateMbps) ∧ v.acked = [false] ∧
    v.pacer = .newBps Rate.startRateBps ∧ v.batch.length ≤ maxGsoBytes ∧ tiny.Reachable
      ⟨⟨.flushTail [], v, .running, [], turns⟩, (connected .twofold tiny 9).rcv, ⟨[], false⟩,
        ⟨[], false⟩, tinyTable⟩ := by
  have h := connected_reachable .twofold tiny rfl 9
  have h₁ := h.send (.drainEmpty rfl rfl (by decide)) .tau
  have h₂ := h₁.send (.selectBlocks rfl (by simp; exact ⟨by decide, rfl⟩)) .tau
  have h₃ : tiny.Reachable ⟨⟨.packets 0 [tinyPkt 0, tinyPkt 1, tinyPkt 2] [], twofoldSpray,
      .running, [], [⟨0, 0, [tinyPkt 0, tinyPkt 1, tinyPkt 2]⟩]⟩, (connected .twofold tiny 9).rcv,
      ⟨[], false⟩, ⟨[], false⟩, []⟩ := h₂.send (.turn rfl (by decide) twofold_startTurn) .tau
  have h₄ := h₃.send (.queued rfl (by rfl)) .tau
  have h₅ := h₄.send (.queued rfl (by rfl)) .tau
  have h₆ := h₅.send (.queued rfl (by rfl)) .tau
  have h₇ := h₆.send (.packetsEnd rfl) .tau
  refine ⟨_, _, ?_, ?_, ?_, ?_, ?_, h₇⟩
  · rfl
  · rfl
  · rfl
  · rfl
  · decide +kernel

theorem twofold_sprayed : ∃ v turns, v.loss = .new ∧
    v.ctrl = some (.new tiny.cfg.seg tiny.cfg.maxRateMbps) ∧ v.acked = [false] ∧
    v.receiverGone = false ∧ tiny.Reachable
      (twofoldSys v turns .collect (.new .twofold (.sealed .new) tiny.cfg.layout)) := by
  obtain ⟨v, turns, hloss, hctrl, hacked, hp, hlen, h⟩ := twofold_packets
  obtain ⟨pacer, hv⟩ := Spray.flushed_first hp hlen
  have h' := h.send (.flushTail rfl 0 false nofun hv) .tau
  refine ⟨_, _, ?_, ?_, ?_, ?_, h'⟩
  · exact hloss
  · exact hctrl
  · exact hacked
  · rfl

theorem twofold_run : ∃ (s : Sys .twofold) (x : Live .twofold), tiny.Reachable s ∧
    s.rcv.live = some x ∧ x.col.ioErr = false ∧ x.col.opened.length = 2 := by
  obtain ⟨c₁, c₂, hc₁, hc₂, -, hio, hlen⟩ := twofold_delivered
  obtain ⟨v, turns, -, -, -, -, h⟩ := twofold_sprayed
  have h₁ := h.recv (.batch rfl rfl (by decide)) .tau
  have h₂ := h₁.recv (.datagram rfl rfl _ _ hc₁) .tau
  have h₃ := h₂.recv (.datagram rfl rfl _ _ hc₂) .tau
  exact ⟨_, _, h₃, rfl, hio, hlen⟩

/-! ## Fresh symbols -/

theorem subperm_map {α β : Type} (f : α → β) {l l' : List α} (h : l.Subperm l') :
    (l.map f).Subperm (l'.map f) := by
  obtain ⟨k, hk, hs⟩ := h
  exact ⟨k.map f, hk.map f, hs.map f⟩

theorem nodup_of_subperm {α : Type} {l l' : List α} (h : l.Subperm l') (hn : l'.Nodup) :
    l.Nodup := by
  obtain ⟨k, hk, hs⟩ := h
  exact hk.nodup_iff.mp (hn.sublist hs)

theorem Handed.exists_carries {table : List Sealed} {x : Live rq}
    {got : List (UInt32 × EncodingPacket)} (h : S.Handed table x got)
    {y : UInt32 × EncodingPacket} (hy : y ∈ got) :
    ∃ d ∈ x.col.opened, Carries S.cfg.transferTag table d y := by
  obtain ⟨i, hi, rfl⟩ := List.mem_iff_getElem.mp hy
  have hi' : i < x.col.opened.length := by rwa [h.carried.length_eq]
  exact ⟨x.col.opened[i], List.getElem_mem hi', h.carried.get hi' hi⟩

theorem Handed.symbolOf {n : UInt64} {table : List Sealed} {x : Live rq}
    {got : List (UInt32 × EncodingPacket)} (h : S.Handed table x got)
    (ht : TableOf rq S.cfg n table) {y : UInt32 × EncodingPacket} (hy : y ∈ got) :
    SymbolOf rq S.cfg y.1 y.2 := by
  obtain ⟨d, -, e, he, hs, -⟩ := h.exists_carries hy
  obtain ⟨q, -, b, p, hsym, hs'⟩ := ht e he
  obtain ⟨-, rfl, rfl⟩ := hs.inj hs'
  exact hsym

/-- The number of a datagram opened and what it carries are those of a packet put
into a datagram. -/
theorem Numbering.mem {s : Sys rq} {out : List (UInt64 × UInt32 × EncodingPacket)}
    (hout : S.Numbering s out) {d : Octets} {y : UInt32 × EncodingPacket}
    (h : Carries S.cfg.transferTag s.table d y) : (wireSeq d, y) ∈ out := by
  obtain ⟨e, he, hs, -⟩ := h
  obtain ⟨y', hy', hs'⟩ := hout.table e he
  obtain ⟨hq, hb, hp⟩ := hs.inj hs'
  obtain rfl : (wireSeq d, y) = y' := Prod.ext hq (Prod.ext hb hp)
  exact hy'

/-- The datagrams opened carry distinct packets among those put into datagrams. -/
theorem Handed.subperm {s : Sys rq} {out : List (UInt64 × UInt32 × EncodingPacket)} {x : Live rq}
    {got : List (UInt32 × EncodingPacket)} (h : S.Handed s.table x got) (hout : S.Numbering s out)
    (hc : (x.col.opened.map wireSeq).Nodup) : got.Subperm (out.map Prod.snd) := by
  have hlen : (x.col.opened.map wireSeq).length = got.length := by
    rw [List.length_map, h.carried.length_eq]
  have hmem : ∀ y ∈ (x.col.opened.map wireSeq).zip got, y ∈ out := by
    intro y hy
    obtain ⟨i, hi, rfl⟩ := List.mem_iff_getElem.mp hy
    simp only [List.length_zip, List.length_map, lt_min_iff] at hi
    simp only [List.getElem_zip, List.getElem_map]
    exact hout.mem (h.carried.get hi.1 hi.2)
  have hnodup : ((x.col.opened.map wireSeq).zip got).Nodup := by
    refine List.Nodup.of_map Prod.fst ?_
    rwa [List.map_fst_zip hlen.le]
  have hsub := subperm_map Prod.snd (List.subperm_of_subset hnodup hmem)
  rwa [List.map_snd_zip hlen.ge] at hsub

/-- No symbol id of a block is accepted twice. -/
theorem Handed.nodup (hrq : rq.Numbered) {s : Sys rq}
    {out : List (UInt64 × UInt32 × EncodingPacket)} {x : Live rq}
    {got : List (UInt32 × EncodingPacket)} (h : S.Handed s.table x got) (hout : S.Numbering s out)
    (hc : (x.col.opened.map wireSeq).Nodup) {b : UInt32} (hb : b < S.cfg.layout.numBlocks) :
    ((packetsOf b got).map (·.esi)).Nodup := by
  obtain ⟨next, -, hnum⟩ := (repair_of_reachable hout.puts.reachable).2.1.numbers hb
  have hturns : ((packetsOf b (out.map Prod.snd)).map (·.esi)).Nodup :=
    (hnum.nodup hrq).sublist ((hout.puts.sublist_turnsOf b).map _)
  exact nodup_of_subperm (subperm_map _ (subperm_map _ ((h.subperm hout hc).filter _))) hturns

/-- **Accepted symbols are fresh.** In every state of every interleaving of a
sealed session under the ideal AEAD, whatever the UDP path does: the datagrams
the receiver has opened carry as many packets as it has counted; each of them is
a packet of one of the sender's turns of its block; and no symbol id of a block
comes twice. -/
theorem accepted_symbols_fresh (hrq : rq.Numbered) (S : Session)
    (hp : S.cfg.plane = .sealed .new) (ha : S.aead = decryptTable) {s : Sys rq}
    (h : S.Reachable s) {x : Live rq} (hx : s.rcv.live = some x) :
    ∃ got : List (UInt32 × EncodingPacket),
      List.Forall₂ (Carries S.cfg.transferTag s.table) x.col.opened got ∧
      x.col.pkts.toNat = got.length ∧
      (∀ y ∈ got, y.1 < S.cfg.layout.numBlocks ∧ y.2 ∈ (s.snd.turnsOf y.1).flatMap (·.packets)) ∧
      ∀ b, b < S.cfg.layout.numBlocks → ((packetsOf b got).map (·.esi)).Nodup := by
  have hsealed := h.sealedInv hp ha
  have hm := hsealed.measured x hx
  obtain ⟨⟨out, hout⟩, hhanded⟩ := h.innovationInv hp ha
  obtain ⟨got, hg⟩ := hhanded x hx
  refine ⟨got, hg.carried, ?_, fun y hy => ?_, fun b hb => hg.nodup hrq hout hm.once hb⟩
  · rw [hm.pkts, hg.carried.length_eq]
  · refine ⟨(hg.symbolOf hsealed.table hy).lt, ?_⟩
    have hmem : y ∈ out.map Prod.snd := (hg.subperm hout hm.once).subset hy
    refine (hout.puts.sublist_turnsOf y.1).subset ?_
    exact List.mem_map.mpr ⟨y, List.mem_filter.mpr ⟨hmem, by simp⟩, rfl⟩

/-- Two packets of the tiny file are accepted, and their ids differ. -/
theorem accepted_fresh_twofold : Raptorq.twofold.Numbered ∧ ∃ (s : Sys .twofold)
    (x : Live .twofold), tiny.Reachable s ∧ s.rcv.live = some x ∧
    ∃ got : List (UInt32 × EncodingPacket), got.length = 2 ∧
      ((packetsOf 0 got).map (·.esi)).Nodup := by
  obtain ⟨s, x, h, hx, -, hlen⟩ := twofold_run
  obtain ⟨got, hcar, -, -, hnodup⟩ :=
    accepted_symbols_fresh Raptorq.numbered_twofold tiny rfl rfl h hx
  exact ⟨Raptorq.numbered_twofold, s, x, h, hx, got, by rw [← hcar.length_eq, hlen],
    hnodup 0 (by decide)⟩

/-! ## Enough symbols -/

end Session

/-- Distinct symbols of one block decode it when their ids are `enough`; no
symbol at all is not. -/
structure Raptorq.Recovers (rq : Raptorq) (enough : Octets → UInt16 → List Nat → Prop) : Prop where
  none (block : Octets) (symbolSize : UInt16) : ¬ enough block symbolSize []
  decodes {block : Octets} {symbolSize : UInt16} {oti : rq.Oti} {d₀ d d' : rq.Decoder}
    {ps : List EncodingPacket} {p : EncodingPacket} {out : Option Octets} :
    rq.withDefaults block.length symbolSize = .ok oti → rq.newDecoder oti = .ok d₀ →
    rq.feed d₀ ps = .ok d → (∀ q ∈ ps ++ [p], rq.Genuine block symbolSize q) →
    ((ps ++ [p]).map (·.esi)).Nodup → enough block symbolSize ((ps ++ [p]).map (·.esi)) →
    rq.decode d p = .ok (out, d') → out ≠ .none

theorem Raptorq.genuine_twofold {block : Octets} {symbolSize : UInt16} {p : EncodingPacket}
    (h : twofold.Genuine block symbolSize p) : p.data = block := by
  obtain ⟨e, be, he, hbe, hp⟩ := h
  cases he
  cases hbe
  rcases hp with hp | ⟨start, n, ps, hps, hp⟩
  · rw [List.mem_singleton.mp hp]
  · simp only [twofold, counted] at hps
    split at hps
    · cases hps
      obtain ⟨i, -, rfl⟩ := List.mem_map.mp hp
      rfl
    · cases hps

theorem Raptorq.decode_twofold {d d' : Bool} {p : EncodingPacket} {out : Option Octets}
    (h : twofold.decode d p = .ok (out, d')) :
    d = true ∧ out = some p.data ∨ d = false ∧ out = none := by
  cases d with
  | true =>
    cases h
    exact .inl ⟨rfl, rfl⟩
  | false =>
    cases h
    exact .inr ⟨rfl, rfl⟩

theorem Raptorq.feed_twofold {d₀ d : Bool} {ps : List EncodingPacket}
    (h : twofold.feed d₀ ps = .ok d) (hps : ps ≠ [] ∨ d₀ = true) : d = true := by
  induction ps generalizing d₀ with
  | nil =>
    cases h
    simpa using hps
  | cons p ps ih =>
    have htail : twofold.feed true ps = .ok d := h
    exact ih htail (.inr rfl)

theorem Raptorq.sound_twofold : twofold.Sound := by
  intro block symbolSize oti d₀ d d' ps p out _ _ _ hgen hdec
  rcases decode_twofold hdec with ⟨-, hout⟩ | ⟨-, hout⟩
  · exact .inr (by rw [hout, genuine_twofold (hgen p (by simp))])
  · exact .inl hout

theorem Raptorq.recovers_twofold : twofold.Recovers fun _ _ ids => 2 ≤ ids.length where
  none block symbolSize := by simp
  decodes {block symbolSize oti d₀ d d' ps p out} _ _ hfeed _ _ hen hdec := by
    have hps : ps ≠ [] := by
      rintro rfl
      simp at hen
    rcases decode_twofold hdec with ⟨-, hout⟩ | ⟨hd, -⟩
    · simp [hout]
    · cases hd.symm.trans (feed_twofold hfeed (.inl hps))

/-- A block alone with distinct symbols of its own that are enough has answered. -/
theorem Lone.after_answered {enough : Octets → UInt16 → List Nat → Prop}
    (hrec : rq.Recovers enough) {b : UInt32} (hb : b < cfg.layout.numBlocks)
    {ps : List EncodingPacket} (hps : ∀ p ∈ ps, SymbolOf rq cfg b p)
    (hnodup : (ps.map (·.esi)).Nodup)
    (hen : enough (cfg.layout.block cfg.data b) cfg.layout.symbolSize (ps.map (·.esi)))
    {x : Lone rq.Decoder} (h : after rq cfg.layout b ps = .ok x) : ∃ data, x = .answered data := by
  cases x with
  | answered data => exact ⟨data, rfl⟩
  | pending slot =>
    exfalso
    rcases after_pending h with ⟨rfl, -⟩ | ⟨oti, d₀, pre, p, d, d', -, hoti, hnew, rfl, hfeed, hdec⟩
    · exact hrec.none _ _ hen
    · rw [Layout.oti_of_lt hb, ← Layout.length_block cfg.fits] at hoti
      exact hrec.decodes hoti hnew hfeed (fun q hq => (hps q hq).genuine hb) hnodup hen hdec rfl

theorem Collect.Inv.not_lt_of_done {l : Layout} {c : Collect rq} (hi : c.Inv l)
    (h : ∀ b, b < l.numBlocks → c.blocks[b.toNat]? = some .done) : ¬ c.decoded < l.numBlocks := by
  have hall : c.blocks.countP Block.isDone = c.blocks.length := by
    refine List.countP_eq_length.mpr fun x hx => ?_
    obtain ⟨i, hlt, rfl⟩ := List.mem_iff_getElem.mp hx
    have hi32 : i < 2 ^ 32 := by
      have := l.numBlocks.toNat_lt
      have := hi.blocks
      omega
    have hn : (UInt32.ofNat i).toNat = i := UInt32.toNat_ofNat_of_lt hi32
    have hd := h (UInt32.ofNat i) (by rw [UInt32.lt_iff_toNat_lt, hn, ← hi.blocks]; exact hlt)
    rw [hn, List.getElem?_eq_getElem hlt] at hd
    rw [Option.some.inj hd]
    rfl
  rw [UInt32.lt_iff_toNat_lt, hi.decoded, hall, hi.blocks]
  omega

namespace Session

/-- **Enough symbols complete the file.** In every state of every interleaving of
a sealed session under the ideal AEAD, for every sound code, whatever the UDP
path does, as long as no write has failed: a block is Done as soon as the ids of
the packets that the datagrams opened carry for it are enough for the code. When
they are for every block, the collection loop is at its end and the file is the
sender's. -/
theorem fountain_complete (hrq : rq.Numbered) (hsound : rq.Sound)
    {enough : Octets → UInt16 → List Nat → Prop} (hrec : rq.Recovers enough) (S : Session)
    (hp : S.cfg.plane = .sealed .new) (ha : S.aead = decryptTable) {s : Sys rq}
    (h : S.Reachable s) {x : Live rq} (hx : s.rcv.live = some x) (hio : x.col.ioErr = false) :
    ∃ got : List (UInt32 × EncodingPacket),
      List.Forall₂ (Carries S.cfg.transferTag s.table) x.col.opened got ∧
      (∀ y ∈ got, y.1 < S.cfg.layout.numBlocks) ∧
      (∀ b, b < S.cfg.layout.numBlocks →
        enough (S.cfg.layout.block S.cfg.data b) S.cfg.layout.symbolSize
          ((packetsOf b got).map (·.esi)) → x.col.blocks[b.toNat]? = some .done) ∧
      ((∀ b, b < S.cfg.layout.numBlocks →
        enough (S.cfg.layout.block S.cfg.data b) S.cfg.layout.symbolSize
          ((packetsOf b got).map (·.esi))) →
        ¬ x.col.decoded < S.cfg.layout.numBlocks ∧ x.col.file = S.cfg.data) := by
  have hsealed := h.sealedInv hp ha
  have hl : x.layout = S.cfg.layout := (h.inv.agreed.live x hx).2.2
  obtain ⟨⟨out, hout⟩, hhanded⟩ := h.innovationInv hp ha
  obtain ⟨got, hg⟩ := hhanded x hx
  have hdone : ∀ b, b < S.cfg.layout.numBlocks →
      enough (S.cfg.layout.block S.cfg.data b) S.cfg.layout.symbolSize
        ((packetsOf b got).map (·.esi)) → x.col.blocks[b.toNat]? = some .done := by
    intro b hb hen
    have hledger := hg.ledger
    rw [hl] at hledger
    obtain ⟨y, hy, hk⟩ := hledger hio b hb
    have hsym : ∀ p ∈ packetsOf b got, SymbolOf rq S.cfg b p := by
      intro p hp
      obtain ⟨z, hz, rfl⟩ := List.mem_map.mp hp
      obtain ⟨hmem, hb'⟩ := List.mem_filter.mp hz
      obtain rfl : z.1 = b := by simpa using hb'
      exact hg.symbolOf hsealed.table hmem
    obtain ⟨data, rfl⟩ := Lone.after_answered hrec hb hsym
      (hg.nodup hrq hout (hsealed.measured x hx).once hb) hen hy
    exact hk.1
  refine ⟨got, hg.carried, fun y hy => (hg.symbolOf hsealed.table hy).lt, hdone, fun hall => ?_⟩
  have hc := h.inv.recv.col x hx
  have hf := hsealed.fed x hx
  rw [hl] at hc hf
  have hd := hc.not_lt_of_done fun b hb => hdone b hb (hall b hb)
  exact ⟨hd, Collect.file_eq hsound hc hf hd⟩

/-- Two packets complete the tiny file. -/
theorem fountain_complete_twofold : ∃ (s : Sys .twofold) (x : Live .twofold), tiny.Reachable s ∧
    s.rcv.live = some x ∧ x.col.ioErr = false ∧ x.col.file = tiny.cfg.data := by
  obtain ⟨s, x, h, hx, hio, hlen⟩ := twofold_run
  obtain ⟨got, hcar, hlt, -, hall⟩ := fountain_complete Raptorq.numbered_twofold
    Raptorq.sound_twofold Raptorq.recovers_twofold tiny rfl rfl h hx hio
  refine ⟨s, x, h, hx, hio, (hall fun b hb => ?_).2⟩
  -- The file has one block, so both packets are of it.
  have hzero : ∀ b, b < tiny.cfg.layout.numBlocks → b = 0 := fun b hb => UInt32.lt_one_iff.mp hb
  rw [hzero b hb]
  have hfilter : got.filter (·.1 = 0) = got :=
    List.filter_eq_self.mpr fun y hy => by simp [hzero y.1 (hlt y hy)]
  simp [packetsOf, hfilter, ← hcar.length_eq, hlen]

end Session

end AtpExperiment
