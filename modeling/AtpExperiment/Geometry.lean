/-
The geometry of GSO super-buffers: what the spray loop hands to
`send_segments`.

The segment size comes from the CLI symbol size, the datagrams' sizes from the
codec's. `geometry_iff`: where a batch holds a datagram, it is made of segments
of that size, within the GSO limits, exactly when the symbol size is a multiple
of eight and a datagram is at most `MAX_GSO_BYTES` long
(`geometry_symbol_size_68` shows a run where it is not).
-/
import AtpExperiment.SealedRun
import AtpExperiment.SendSymbols

namespace AtpExperiment

open Octets Aead Duplex Sealed

variable {rq : Raptorq} {enc : Encrypt} {cfg : SendCfg}

/-! ## One datagram -/

namespace TxPlane

/-- A call that succeeds appends one datagram of `wire_len` bytes, and the
plane stays of its kind. -/
theorem encodeInto_appends (hsize : InPlace enc tagLen) (plane : TxPlane) (t : UInt64) (b : UInt32)
    (payload out : Octets) :
    (plane.encodeInto enc t b payload out).plane.wireLen = plane.wireLen ∧
      ((plane.encodeInto enc t b payload out).ok = true →
        ∃ d, (plane.encodeInto enc t b payload out).out = out ++ d ∧
          d.length = plane.wireLen payload.length) := by
  cases plane with
  | plain =>
    refine ⟨rfl, fun _ => ⟨Datagram.encode t b payload, ?_, ?_⟩⟩
    · simp [encodeInto, Datagram.encode, Datagram.encodeInto]
    · simp [Datagram.encode, Datagram.encodeInto, Datagram.magic, wireLen, Datagram.headerLen]
      omega
  | sealed sealer =>
    refine ⟨rfl, fun hok => ?_⟩
    obtain ⟨cipher, tag, henc, -, hout⟩ := encodeInto_sealed_ok hok
    obtain ⟨hc, ht⟩ := hsize _ _ _ _ _ henc
    refine ⟨_, hout, ?_⟩
    rw [sealBody, List.length_append, length_leBytes] at hc
    simp only [List.length_append, length_header, hc, ht, wireLen, overhead]
    omega

theorem wireLen_burnSeq (plane : TxPlane) : plane.burnSeq.wireLen = plane.wireLen := by
  cases plane <;> rfl

theorem wireLen_inj {plane : TxPlane} {m n : Nat} (h : plane.wireLen m = plane.wireLen n) :
    m = n := by
  cases plane <;> simpa [wireLen] using h

end TxPlane

/-! ## The batch -/

/-- The batch is `batchSegs` datagrams of `len` bytes. -/
def Spray.Filled (len : Nat) (v : Spray rq) : Prop :=
  ∃ ds : List Octets, v.batch = ds.flatten ∧ ds.length = v.batchSegs ∧ ∀ d ∈ ds, d.length = len

theorem Spray.Filled.length {len : Nat} {v : Spray rq} (h : v.Filled len) :
    v.batch.length = v.batchSegs * len := by
  obtain ⟨ds, hb, hn, hd⟩ := h
  rw [hb, List.length_flatten, List.map_congr_left hd, List.map_const', List.sum_replicate_nat, hn]

/-- Neither returned nor panicked. -/
def SendPc.alive : SendPc → Bool
  | .returned _ | .panicked => false
  | _ => true

/-- Handing over a full batch. -/
def SendPc.full : SendPc → Bool
  | .flush .. => true
  | _ => false

/-- What a step can do to the batch. -/
inductive BatchStep (enc : Encrypt) (cfg : SendCfg) (s s' : SendState rq) : Prop
  | dead (h : s'.pc.alive = false)
  | same (hb : s'.v.batch = s.v.batch) (hn : s'.v.batchSegs = s.v.batchSegs)
      (hw : s'.v.plane.wireLen = s.v.plane.wireLen) (ha : s.pc.alive = true)
      (hf : s'.pc.full = s.pc.full) (hd : s'.v.pacer.next = s.v.pacer.next)
      (hs : s'.v.bytesSent = s.v.bytesSent)
  | queued {b : UInt32} {p : EncodingPacket} {ps : List EncodingPacket}
      (hp : s.pc.packetsOf = some (b, p :: ps)) (ha : s.pc.alive = true) (hf : s.pc.full = false)
      (hok :
        (s.v.plane.encodeInto enc cfg.transferTag b (p.payloadId ++ p.data) s.v.batch).ok = true)
      (hw : s'.v.plane =
        (s.v.plane.encodeInto enc cfg.transferTag b (p.payloadId ++ p.data) s.v.batch).plane)
      (hb : s'.v.batch =
        (s.v.plane.encodeInto enc cfg.transferTag b (p.payloadId ++ p.data) s.v.batch).out)
      (hn : s'.v.batchSegs = s.v.batchSegs + 1)
      (hf' : s'.pc.full = decide (s'.v.batchSegs = cfg.maxSegs)) (hd : s'.v.pacer = s.v.pacer)
      (hs : Checked.addU64 s.v.bytesSent (UInt64.ofNat cfg.seg) = .ok s'.v.bytesSent)
  | flushed (hb : s'.v.batch = []) (hn : s'.v.batchSegs = 0)
      (hw : s'.v.plane.wireLen = s.v.plane.wireLen) (ha : s.pc.alive = true)
      (hd : s'.v.pacer = s.v.pacer ∨ ∃ (now : Instant) (sleep : ℚ),
        s.v.pacer.pace now.secs s.v.batch.length = .ok (s'.v.pacer, sleep))
      (hs : s'.v.bytesSent = s.v.bytesSent)

theorem SendStep.batch {s s' : SendState rq} {a : Act Frame} {e : Option Sealed}
    (h : SendStep enc cfg s a e s') : BatchStep enc cfg s s' ∨ s'.v = s.v ∧ s'.pc = s.pc := by
  cases h with
  | readerRead | readerFail | readerReturn => exact .inr ⟨rfl, rfl⟩
  | readFail | callFail | helloAckOther | manifestAckOther | openPushNone | openPullTimeout
  | drainDone | drainErr | drainPanic | drainClosed | awaitDone | awaitFail | turnPanic | encodeFail
  | packetPanic | flushPanic | roundPanic => exact .inl (.dead rfl)
  | @hello ok h | @manifest _ ok h =>
    cases ok with
    | false => exact .inl (.dead rfl)
    | true => exact .inl (.same rfl rfl rfl (by rw [h]; rfl) (by rw [h]; rfl) rfl rfl)
  | helloAck h | manifestAck h | openPush h | openPull h | selectAwait h | selectBlocks h
  | awaitOther h | skip h | blocksEnd h | settle h | roundEnd h =>
    exact .inl (.same rfl rfl rfl (by rw [h]; rfl) (by rw [h]; rfl) rfl rfl)
  | drainGo h hm hv =>
    have hd := Spray.onFeedback_next hv
    obtain ⟨_, _, _, _, _, rfl⟩ := Spray.onFeedback_frame hv
    exact .inl (.same rfl rfl rfl (by rw [h]; rfl) rfl hd rfl)
  | @drainEmpty k h =>
    refine .inl (.same rfl rfl rfl (by rw [h]; rfl) ?_ rfl rfl)
    rw [h]
    rcases SendState.resume_cases cfg s.v k with hk | ⟨_, -, hk⟩ | hk | hk <;> rw [hk] <;> rfl
  | turn h ha hv =>
    obtain ⟨_, _, rfl⟩ := Spray.startTurn_frame hv
    exact .inl (.same rfl rfl rfl (by rw [h]; rfl) (by rw [h]; rfl) rfl rfl)
  | dropped h hv =>
    obtain ⟨n, rng, -, hout | he⟩ := Spray.sendPacket_cases hv
    · cases hout
      exact .inl (.same rfl rfl (TxPlane.wireLen_burnSeq _) (by rw [h]; rfl) (by rw [h]; rfl) rfl
        rfl)
    · rcases Spray.encodePacket_cases he with ⟨-, bytes, hq⟩ | ⟨-, hq⟩ <;> cases hq
  | queued h hv =>
    obtain ⟨n, rng, bytes, -, hs, hok, rfl⟩ := Spray.sendPacket_queued hv
    refine .inl (.queued (by rw [h]; rfl) (by rw [h]; rfl) (by rw [h]; rfl) hok rfl rfl rfl ?_
      rfl hs)
    simp only
    split
    · next hfull => simp [SendPc.full, hfull]
    · next hfull => simp [SendPc.full, hfull]
  | @packetsEnd _ todo h =>
    refine .inl (.same rfl rfl rfl (by rw [h]; rfl) ?_ rfl rfl)
    rw [h]
    rcases SendState.endTurn_cases s.v todo with hk | ⟨-, hk⟩ | hk <;> rw [hk] <;> rfl
  | flush h now gone hg hv | flushTail h now gone hg hv =>
    obtain ⟨pacer, hp, rfl⟩ := Spray.flushed_eq_ok hg hv
    exact .inl (.flushed rfl rfl rfl (by rw [h]; rfl) (hp.imp_right fun hp => ⟨now, hp⟩) rfl)

/-- The batch has room except where a full one is handed over. -/
structure RoomInv (cfg : SendCfg) (s : SendState rq) : Prop where
  wire : s.v.plane.wireLen = cfg.plane.wireLen
  segs : s.v.batchSegs ≤ cfg.maxSegs
  room : s.pc.full = false → s.v.batchSegs < cfg.maxSegs

/-- It holds datagrams of the codec's symbol size. -/
structure BatchInv (cfg : SendCfg) (s : SendState rq) : Prop extends RoomInv cfg s where
  filled : s.v.Filled (cfg.plane.wireLen (4 + Raptorq.aligned cfg.layout.symbolSize))

theorem SendCfg.maxSegs_pos (cfg : SendCfg) : 0 < cfg.maxSegs := Nat.le_max_left _ _

theorem roomInv_init (cfg : SendCfg) : RoomInv cfg (SendState.init rq cfg) where
  wire := rfl
  segs := Nat.zero_le _
  room _ := cfg.maxSegs_pos

theorem batchInv_init (cfg : SendCfg) : BatchInv cfg (SendState.init rq cfg) where
  toRoomInv := roomInv_init cfg
  filled := ⟨[], rfl, rfl, by simp⟩

theorem BatchStep.room {s s' : SendState rq} (hsize : InPlace enc tagLen)
    (h : BatchStep enc cfg s s') (hi : s.pc.alive = true → RoomInv cfg s)
    (ha' : s'.pc.alive = true) : RoomInv cfg s' := by
  cases h with
  | dead h =>
    rw [ha'] at h
    cases h
  | same hb hn hw ha hf _ _ =>
    have hi := hi ha
    exact ⟨hw.trans hi.wire, hn.trans_le hi.segs, fun h => hn.trans_lt (hi.room (hf.symm.trans h))⟩
  | flushed hb hn hw ha _ _ =>
    exact ⟨hw.trans (hi ha).wire, by rw [hn]; exact Nat.zero_le _,
      fun _ => by rw [hn]; exact cfg.maxSegs_pos⟩
  | @queued b p ps hp ha hf hok hw hb hn hf' =>
    have hi := hi ha
    have hroom := hi.room hf
    have hkind := (TxPlane.encodeInto_appends hsize s.v.plane cfg.transferTag b
      (p.payloadId ++ p.data) s.v.batch).1
    refine ⟨by rw [hw, hkind, hi.wire], by omega, fun h => ?_⟩
    rw [hf', decide_eq_false_iff_not] at h
    omega

theorem RoomInv.same {s s' : SendState rq} (hi : RoomInv cfg s) (hv : s'.v = s.v)
    (hpc : s'.pc = s.pc) : RoomInv cfg s' :=
  ⟨by rw [hv, hi.wire], by rw [hv]; exact hi.segs,
    fun hf => by rw [hv]; exact hi.room (by rwa [← hpc])⟩

theorem BatchStep.inv {s s' : SendState rq} (hrq : rq.Aligned) (hsize : InPlace enc tagLen)
    (h : BatchStep enc cfg s s') (hsym : SymbolInv cfg s) (hi : s.pc.alive = true → BatchInv cfg s)
    (ha' : s'.pc.alive = true) : BatchInv cfg s' := by
  refine ⟨h.room hsize (fun ha => (hi ha).toRoomInv) ha', ?_⟩
  cases h with
  | dead h =>
    rw [ha'] at h
    cases h
  | same hb hn hw ha hf =>
    obtain ⟨ds, h₁, h₂, h₃⟩ := (hi ha).filled
    exact ⟨ds, hb.trans h₁, h₂.trans hn.symm, h₃⟩
  | flushed hb hn hw ha => exact ⟨[], hb, hn.symm, by simp⟩
  | @queued b p ps hp ha hf hok hw hb hn hf' =>
    have hi := hi ha
    obtain ⟨r, hr, hgen⟩ := hsym.packets b _ hp p List.mem_cons_self
    have hlen : (p.payloadId ++ p.data).length = 4 + Raptorq.aligned cfg.layout.symbolSize := by
      rw [p.length_payload, hrq hgen]
    obtain ⟨d, hout, hd⟩ := (TxPlane.encodeInto_appends hsize s.v.plane cfg.transferTag b
      (p.payloadId ++ p.data) s.v.batch).2 hok
    obtain ⟨ds, h₁, h₂, h₃⟩ := hi.filled
    refine ⟨ds ++ [d], ?_, ?_, ?_⟩
    · rw [hb, hout, h₁]
      simp
    · rw [List.length_append, h₂, hn, List.length_singleton]
    · intro x hx
      rcases List.mem_append.mp hx with hx | hx
      · exact h₃ x hx
      · rw [List.mem_singleton.mp hx, hd, hlen, hi.wire]

theorem batchInv_of_reachable (hrq : rq.Aligned) (hsize : InPlace enc tagLen) {s : SendState rq}
    (hs : Runs.Reachable (· = SendState.init rq cfg) (SendNext enc cfg) s)
    (ha : s.pc.alive = true) : BatchInv cfg s := by
  have key : SymbolInv cfg s ∧ (s.pc.alive = true → BatchInv cfg s) := by
    refine hs.invariant (fun s => SymbolInv cfg s ∧ (s.pc.alive = true → BatchInv cfg s)) ?_ ?_
    · intro s he
      subst he
      exact ⟨symbolInv_init cfg, fun _ => batchInv_init cfg⟩
    · intro s s' hi hx
      obtain ⟨hsym, hb⟩ := hi
      obtain ⟨a, e, hstep⟩ := hx
      refine ⟨hstep.symbolInv hsym, fun ha' => ?_⟩
      rcases hstep.batch with h | ⟨hv, hpc⟩
      · exact h.inv hrq hsize hsym hb ha'
      · have hi := hb (by rw [← hpc, ha'])
        exact ⟨hi.toRoomInv.same hv hpc, by rw [hv]; exact hi.filled⟩
  exact key.2 ha

/-! ## Geometry -/

/-- What `send_segments` and the kernel require of the batch. -/
structure Geometry (cfg : SendCfg) (v : Spray rq) : Prop where
  segments : ∃ ds : List Octets, v.batch = ds.flatten ∧ ds.length = v.batchSegs ∧
    ds.length ≤ maxGsoSegments ∧ ∀ d ∈ ds, d.length = cfg.seg
  length : v.batch.length = v.batchSegs * cfg.seg
  total : v.batch.length ≤ maxGsoBytes
  seg : cfg.seg < 2 ^ 16

theorem SendCfg.maxSegs_le (cfg : SendCfg) : cfg.maxSegs ≤ maxGsoSegments := by
  unfold maxSegs maxGsoSegments
  omega

/-- A full batch is within the limit when a datagram is. -/
theorem SendCfg.full_le {cfg : SendCfg} (h : cfg.seg ≤ maxGsoBytes) {n : Nat}
    (hn : n ≤ cfg.maxSegs) : n * cfg.seg ≤ maxGsoBytes := by
  have hpos : 0 < cfg.seg := cfg.plane.wireLen_pos _
  have hone : 1 ≤ maxGsoBytes / cfg.seg := (Nat.one_le_div_iff hpos).mpr h
  have hle : n ≤ maxGsoBytes / cfg.seg := by
    refine hn.trans ?_
    unfold maxSegs
    omega
  exact (Nat.mul_le_mul_right _ hle).trans (Nat.div_mul_le_self _ _)

/-- **When super-buffers are segments.** With a codec whose symbols are the
symbol size without its remainder by eight, on either plane, at every point of
every run inside the spray loop (so wherever a batch is handed to
`send_segments`): if `--symbol-size` is a multiple of eight and a datagram has
at most `MAX_GSO_BYTES` bytes, the batch is `batch_segs` datagrams of `seg`
bytes, at most `MAX_GSO_SEGMENTS`, together at most `MAX_GSO_BYTES`, and `seg`
fits in a `u16`; and as soon as the batch holds a datagram, only then. -/
theorem geometry_iff (rq : Raptorq) (hrq : rq.Aligned) (enc : Encrypt)
    (hsize : InPlace enc Sealed.tagLen) (cfg : SendCfg) {s : SendState rq}
    (hs : Runs.Reachable (· = SendState.init rq cfg) (SendNext enc cfg) s)
    (hpc : s.pc.spraying = true) :
    (cfg.layout.symbolSize.toNat % 8 = 0 ∧ cfg.seg ≤ maxGsoBytes → Geometry cfg s.v) ∧
      (0 < s.v.batchSegs → Geometry cfg s.v →
        cfg.layout.symbolSize.toNat % 8 = 0 ∧ cfg.seg ≤ maxGsoBytes) := by
  have ha : s.pc.alive = true := by
    cases h : s.pc with
    | returned r | panicked =>
      rw [h] at hpc
      cases hpc
    | _ => rfl
  have hi := batchInv_of_reachable hrq hsize hs ha
  constructor
  · intro hc
    obtain ⟨h8, hle⟩ := hc
    have hseg : cfg.plane.wireLen (4 + Raptorq.aligned cfg.layout.symbolSize) = cfg.seg := by
      rw [Raptorq.aligned, h8, Nat.sub_zero, SendCfg.seg]
    have hf := hi.filled
    rw [hseg] at hf
    obtain ⟨ds, h₁, h₂, h₃⟩ := hf
    refine ⟨⟨ds, h₁, h₂, ?_, h₃⟩, Spray.Filled.length ⟨ds, h₁, h₂, h₃⟩, ?_, ?_⟩
    · rw [h₂]
      exact hi.segs.trans cfg.maxSegs_le
    · rw [Spray.Filled.length ⟨ds, h₁, h₂, h₃⟩]
      exact SendCfg.full_le hle hi.segs
    · exact lt_of_le_of_lt hle (by decide)
  · intro hpos hg
    have hlen := hi.filled.length
    rw [hg.length] at hlen
    -- Datagrams of one size that fill segments of another have that size.
    have hseg : cfg.seg = cfg.plane.wireLen (4 + Raptorq.aligned cfg.layout.symbolSize) :=
      Nat.eq_of_mul_eq_mul_left hpos hlen
    have h8 := TxPlane.wireLen_inj hseg
    have htotal := hg.total
    rw [hg.length] at htotal
    refine ⟨?_, le_trans (Nat.le_mul_of_pos_left _ hpos) htotal⟩
    have hsym := cfg.layout.symbol_pos
    unfold Raptorq.aligned at h8
    omega

/-! ## Symbol sizes 64 and 68 -/

theorem first_queued {e : Option Sealed} {p : EncodingPacket} {ps : List EncodingPacket}
    {v v' : Spray rq} (hone : cfg.layout.numBlocks = 1)
    (hturn : (Spray.new rq cfg).startTurn cfg 0 = .ok (p :: ps, v))
    (hp : v.sendPacket enc cfg 0 p = .ok (.queued v' e)) :
    ∃ s : SendState rq, Runs.Reachable (· = SendState.init rq cfg) (SendNext enc cfg) s ∧
      s.pc.spraying = true ∧ s.v = v' := by
  have hpending : (Spray.new rq cfg).pending cfg = [0] := by
    simp only [Spray.pending, Spray.new, hone]
    decide
  have h₀ := spraying_reachable rq enc cfg
  have h₁ := h₀.next ⟨_, _, .drainEmpty rfl rfl (by simp)⟩
  have h₂ := h₁.next ⟨_, _, .selectBlocks rfl (by
    rw [show (SendState.init rq cfg).v = Spray.new rq cfg from rfl, hpending]
    simp [Spray.new])⟩
  rw [show (SendState.init rq cfg).v = Spray.new rq cfg from rfl, hpending] at h₂
  have hnot : (Spray.new rq cfg).acked[(0 : UInt32).toNat]? ≠ some true := by
    simp [Spray.new, hone]
  have h₃ := h₂.next ⟨_, _, .turn rfl hnot hturn⟩
  have h₄ := h₃.next ⟨_, _, .queued rfl hp⟩
  refine ⟨_, h₄, ?_, rfl⟩
  simp only
  split <;> rfl

/-- The tiny file in plaintext, with symbols of 64 bytes. -/
def cfg64 : SendCfg := tinyCfg .plain "" 200

/-- The same with `--symbol-size 68`. -/
def cfg68 : SendCfg :=
  { cfg64 with layout := { cfg64.layout with symbolSize := 68, symbol_pos := by decide } }

set_option maxRecDepth 4000 in
/-- With either symbol size the codec's symbols have 64 bytes, and the first
datagram 84. -/
theorem sliced_queued (enc : Encrypt) (h : cfg = cfg64 ∨ cfg = cfg68) : ∃ s : SendState .sliced,
    Runs.Reachable (· = SendState.init .sliced cfg) (SendNext enc cfg) s ∧
      s.pc.spraying = true ∧ s.v.batchSegs = 1 ∧ s.v.batch.length = 84 := by
  have hk : cfg.layout.sourceSymbols 0 = .ok 2 := by
    rcases h with rfl | rfl <;> rfl
  have hrep : (Spray.new .sliced cfg).repairCount cfg 2 = .ok 2 :=
    Spray.repairCount_first (by rcases h with rfl | rfl <;> rfl) rfl rfl (by decide)
  have hturn : ∃ p ps v, (Spray.new .sliced cfg).startTurn cfg 0 = .ok (p :: ps, v) ∧
      ∃ v', v.sendPacket enc cfg 0 p = .ok (.queued v' none) ∧
        v'.batchSegs = 1 ∧ v'.batch.length = 84 := by
    simp only [Spray.startTurn, hk, Checked.ok_bind, hrep]
    rcases h with rfl | rfl <;> exact ⟨_, _, _, rfl, _, rfl, rfl, rfl⟩
  obtain ⟨p, ps, v, hturn, v', hp, hn, hlen⟩ := hturn
  obtain ⟨s, hs, hpc, hv⟩ := first_queued (by rcases h with rfl | rfl <;> rfl) hturn hp
  exact ⟨s, hs, hpc, by rw [hv, hn], by rw [hv, hlen]⟩

/-- With `--symbol-size 64` the first datagram is a segment. -/
theorem geometry_symbol_size_64 : ∃ s : SendState .sliced,
    Runs.Reachable (· = SendState.init .sliced cfg64) (SendNext SealedRun.xorCipher cfg64) s ∧
      s.v.batchSegs = 1 ∧ Geometry cfg64 s.v := by
  obtain ⟨s, hs, hpc, hn, -⟩ := sliced_queued SealedRun.xorCipher (.inl rfl)
  exact ⟨s, hs, hn, (geometry_iff .sliced Raptorq.aligned_sliced SealedRun.xorCipher
    SealedRun.xorCipher_inPlace cfg64 hs hpc).1 (by decide)⟩

/-- With `--symbol-size 68` segments have 88 bytes, and the first datagram has
84: a batch is cut in the wrong places from the second datagram on. -/
theorem geometry_symbol_size_68 : ∃ s : SendState .sliced,
    Runs.Reachable (· = SendState.init .sliced cfg68) (SendNext SealedRun.xorCipher cfg68) s ∧
      s.pc.spraying = true ∧ cfg68.seg = 88 ∧ s.v.batchSegs = 1 ∧ s.v.batch.length = 84 ∧
      ¬ Geometry cfg68 s.v := by
  obtain ⟨s, hs, hpc, hn, hlen⟩ := sliced_queued SealedRun.xorCipher (.inr rfl)
  refine ⟨s, hs, hpc, rfl, hn, hlen, fun hg => ?_⟩
  have h := hg.length
  rw [hn, hlen] at h
  cases h

end AtpExperiment
