/-
The invariant of the collection loop, for any datagrams, any AEAD and any
write outcomes.

`onDatagram_moved` says everything one call of the closure can do. From it,
`Moved.inv`: `decoded` counts the Done blocks, every Done block was written at
its range and the file still holds it, and only Done blocks wait to be acked.
-/
import AtpExperiment.Collect

namespace AtpExperiment

open Octets Aead

variable {rq : Raptorq}

namespace Collect

/-! ## One call -/

/-- A call of the closure that reaches the decoder, which answers `out`. -/
structure Feed (dec : Decrypt) (l : Layout) (tag : UInt64) (c : Collect rq) (dgram : Octets)
    (out : Option Octets) where
  plane : RxPlane
  b : UInt32
  payload : Octets
  pkts : UInt64
  slot : Option rq.Decoder
  d : rq.Decoder
  packet : EncodingPacket
  d' : rq.Decoder
  opens : c.plane.open dec tag dgram = .ok (some (b, payload), plane)
  four : 4 ≤ payload.length
  counted : Checked.addU64 c.pkts 1 = .ok pkts
  inRange : b < l.numBlocks
  pending : c.blocks[b.toNat]? = some (.pending slot)
  decoder : decoderOf l b slot = .ok d
  deserialized : EncodingPacket.deserialize payload = .ok packet
  decodes : rq.decode d packet = .ok (out, d')

/-- The locals after the decoder has seen the packet. -/
def Feed.next {dec : Decrypt} {l : Layout} {tag : UInt64} {c : Collect rq} {dgram : Octets}
    {out : Option Octets} (f : Feed dec l tag c dgram out) : Collect rq :=
  { c with
    plane := f.plane
    opened := c.opened ++ [dgram]
    pkts := f.pkts
    blocks := c.blocks.set f.b.toNat (.pending (some f.d')) }

/-- What a call of the closure can do. -/
inductive Moved (dec : Decrypt) (l : Layout) (tag : UInt64) (c : Collect rq) (dgram : Octets) :
    Collect rq → Prop
  /-- The datagram does not open. -/
  | rejected : Moved dec l tag c dgram c
  | short {b : UInt32} {payload : Octets} {plane : RxPlane}
      (hopen : c.plane.open dec tag dgram = .ok (some (b, payload), plane))
      (hlen : payload.length < 4) :
    Moved dec l tag c dgram { c with plane, opened := c.opened ++ [dgram] }
  | outOfRange {b : UInt32} {payload : Octets} {plane : RxPlane} {pkts : UInt64}
      (hopen : c.plane.open dec tag dgram = .ok (some (b, payload), plane))
      (hpkts : Checked.addU64 c.pkts 1 = .ok pkts) (hb : l.numBlocks ≤ b) :
    Moved dec l tag c dgram { c with plane, opened := c.opened ++ [dgram], pkts }
  | late {b : UInt32} {payload : Octets} {plane : RxPlane} {pkts latePkts : UInt64}
      (hopen : c.plane.open dec tag dgram = .ok (some (b, payload), plane))
      (hpkts : Checked.addU64 c.pkts 1 = .ok pkts) (hd : c.blocks[b.toNat]? = some .done) :
    Moved dec l tag c dgram { c with plane, opened := c.opened ++ [dgram], pkts, latePkts }
  | fed (f : Feed dec l tag c dgram none) : Moved dec l tag c dgram f.next
  | writeFailed {data : Octets} (f : Feed dec l tag c dgram (some data))
      (hlen : data.length = l.stop f.b - l.start f.b) (n : Nat) :
    Moved dec l tag c dgram { f.next with
      file := writeAt c.file (l.start f.b) (data.take n)
      ioErr := true }
  | stored {data : Octets} (f : Feed dec l tag c dgram (some data))
      (hlen : data.length = l.stop f.b - l.start f.b) {decoded : UInt32}
      (hdec : Checked.addU32 c.decoded 1 = .ok decoded) :
    Moved dec l tag c dgram { f.next with
      file := writeAt c.file (l.start f.b) data
      writes := c.writes ++ [⟨f.b, l.start f.b, data⟩]
      blocks := c.blocks.set f.b.toNat .done
      decoded
      pendingAcks := c.pendingAcks ++ [f.b] }

theorem store_moved {dec : Decrypt} {l : Layout} {tag : UInt64} {c c' : Collect rq}
    {dgram data : Octets} {w : WriteOutcome} (f : Feed dec l tag c dgram (some data))
    (h : f.next.store l f.b data w = .ok c') : Moved dec l tag c dgram c' := by
  simp only [store, Layout.blockLen_of_lt f.inRange, Layout.range_of_lt f.inRange,
    Checked.ok_bind] at h
  split at h
  · cases h
  next hlen =>
  cases w with
  | fail n =>
    cases h
    exact .writeFailed f (not_not.mp hlen) n
  | ok =>
    simp only [Checked.bind_eq_ok, Checked.pure_eq_ok] at h
    obtain ⟨decoded, hdec, rfl⟩ := h
    have hset : f.next.blocks.set f.b.toNat .done = c.blocks.set f.b.toNat .done := by
      simp [Feed.next]
    rw [hset]
    exact .stored f (not_not.mp hlen) hdec

/-- Everything one call of the closure can do. -/
theorem onDatagram_moved {dec : Decrypt} {l : Layout} {tag : UInt64} {c c' : Collect rq}
    {dgram : Octets} {w : WriteOutcome} (h : c.onDatagram dec l tag dgram w = .ok c') :
    Moved dec l tag c dgram c' := by
  simp only [onDatagram, Checked.bind_eq_ok] at h
  obtain ⟨⟨r, plane⟩, hopen, h⟩ := h
  rcases r with _ | ⟨b, payload⟩
  · obtain rfl := RxPlane.open_none hopen
    cases h
    exact .rejected
  simp only [onPayload] at h
  split at h
  · next hlen =>
    cases h
    exact .short hopen hlen
  next hfour =>
  simp only [Checked.bind_eq_ok] at h
  obtain ⟨pkts, hpkts, h⟩ := h
  split at h
  · next hb =>
    cases h
    exact .outOfRange hopen hpkts hb
  next hb =>
  simp only [onSymbol] at h
  split at h
  · cases h
  · next hd =>
    simp only [Checked.bind_eq_ok, Checked.pure_eq_ok] at h
    obtain ⟨late, -, rfl⟩ := h
    exact .late hopen hpkts hd
  · next slot hslot =>
    simp only [Checked.bind_eq_ok] at h
    obtain ⟨d, hd, packet, hp, ⟨out, d'⟩, hdec, h⟩ := h
    let f : Feed dec l tag c dgram out := ⟨plane, b, payload, pkts, slot, d, packet, d', hopen,
      not_lt.mp hfour, hpkts, UInt32.not_le.mp hb, hslot, hd, hp, hdec⟩
    cases out with
    | none =>
      cases h
      exact .fed f
    | some data => exact store_moved f h

end Collect

/-! ## Invariant -/

/-- A Done block. -/
def Block.isDone {D : Type} : Block D → Bool
  | .done => true
  | .pending _ => false

namespace Collect

/-- Block `b` is Done, was written at its range, and the file holds it. -/
def Stored (l : Layout) (c : Collect rq) (b : UInt32) : Prop :=
  c.blocks[b.toNat]? = some .done ∧ ∃ data, ⟨b, l.start b, data⟩ ∈ c.writes ∧
    data.length = l.stop b - l.start b ∧ HoldsAt c.file (l.start b) data

/-- The invariant of the loop. -/
structure Inv (l : Layout) (c : Collect rq) : Prop where
  blocks : c.blocks.length = l.numBlocks.toNat
  file : c.file.length = l.fileSize.toNat
  decoded : c.decoded.toNat = c.blocks.countP Block.isDone
  stored : ∀ b : UInt32, c.blocks[b.toNat]? = some .done → c.Stored l b
  acks : ∀ b ∈ c.pendingAcks, c.blocks[b.toNat]? = some .done

theorem inv_new (rq : Raptorq) (plane : RxPlane) (l : Layout) : (new rq plane l).Inv l where
  blocks := List.length_replicate
  file := List.length_replicate
  decoded := by simp [new, List.countP_replicate, Block.isDone]
  stored b h := by
    simp only [new, List.getElem?_replicate] at h
    split at h <;> cases h
  acks b hb := by cases hb

theorem Inv.lt_of_done {l : Layout} {c : Collect rq} (hi : c.Inv l) {b : UInt32}
    (h : c.blocks[b.toNat]? = some .done) : b < l.numBlocks := by
  rw [UInt32.lt_iff_toNat_lt, ← hi.blocks]
  exact (List.getElem?_eq_some_iff.mp h).1

theorem Stored.write {l : Layout} {c c' : Collect rq} {b b' : UInt32} {data : Octets}
    (h : c.Stored l b) (hi : c.Inv l) (hb' : b' < l.numBlocks) (hne : b ≠ b')
    (hlen : data.length ≤ l.stop b' - l.start b')
    (hfile : c'.file = writeAt c.file (l.start b') data)
    (hdone : c'.blocks[b.toNat]? = c.blocks[b.toNat]?) (hw : ∀ w ∈ c.writes, w ∈ c'.writes) :
    c'.Stored l b := by
  obtain ⟨hd, data', hmem, hlen', hold⟩ := h
  refine ⟨by rw [hdone, hd], data', hw _ hmem, hlen', ?_⟩
  have hf := hi.file
  have hlt := Layout.start_lt_stop hb'
  have hlt' := Layout.start_lt_stop (hi.lt_of_done hd)
  have hle := l.stop_le b'
  rw [hfile]
  refine hold.writeAt (by omega) ?_
  rcases Layout.disjoint (l := l) hne with h | h
  · exact .inl (by omega)
  · exact .inr (by omega)

theorem Inv.of_eq {l : Layout} {c c' : Collect rq} (hi : c.Inv l) (hb : c'.blocks = c.blocks)
    (hf : c'.file = c.file) (hd : c'.decoded = c.decoded) (hw : c'.writes = c.writes)
    (ha : ∀ b ∈ c'.pendingAcks, b ∈ c.pendingAcks) : c'.Inv l where
  blocks := by rw [hb, hi.blocks]
  file := by rw [hf, hi.file]
  decoded := by rw [hd, hb, hi.decoded]
  stored b h := by
    rw [hb] at h
    obtain ⟨h₁, data, h₂, h₃, h₄⟩ := hi.stored b h
    exact ⟨by rw [hb, h₁], data, by rw [hw]; exact h₂, h₃, by rw [hf]; exact h₄⟩
  acks b h := by rw [hb]; exact hi.acks b (ha b h)

theorem Inv.fed {dec : Decrypt} {l : Layout} {tag : UInt64} {c : Collect rq} {dgram : Octets}
    {out : Option Octets} (hi : c.Inv l) (f : Feed dec l tag c dgram out) : f.next.Inv l := by
  have hlt : f.b.toNat < c.blocks.length := (List.getElem?_eq_some_iff.mp f.pending).1
  have hget : c.blocks[f.b.toNat] = .pending f.slot := (List.getElem?_eq_some_iff.mp f.pending).2
  have hdone : ∀ b : UInt32,
      f.next.blocks[b.toNat]? = some .done ↔ c.blocks[b.toNat]? = some .done := by
    intro b
    simp only [Feed.next, List.getElem?_set]
    split
    · next he => simp [hlt, ← he, hget]
    · rfl
  refine ⟨by simp [Feed.next, hi.blocks], hi.file, ?_, fun b h => ?_, fun b h => ?_⟩
  · simp [Feed.next, List.countP_set, hlt, hget, Block.isDone, hi.decoded]
  · obtain ⟨h₁, data, h₂, h₃, h₄⟩ := hi.stored b ((hdone b).mp h)
    exact ⟨h, data, h₂, h₃, h₄⟩
  · exact (hdone b).mpr (hi.acks b h)

theorem Feed.ne_of_done {dec : Decrypt} {l : Layout} {tag : UInt64} {c : Collect rq}
    {dgram : Octets} {out : Option Octets} (f : Feed dec l tag c dgram out) {b : UInt32}
    (h : c.blocks[b.toNat]? = some .done) : b ≠ f.b := by
  intro he
  subst he
  rw [f.pending] at h
  cases h

theorem Moved.done_mono {dec : Decrypt} {l : Layout} {tag : UInt64} {c c' : Collect rq}
    {dgram : Octets} (hm : Moved dec l tag c dgram c') {b : UInt32}
    (h : c.blocks[b.toNat]? = some .done) : c'.blocks[b.toNat]? = some .done := by
  have hset : ∀ {out} (f : Feed dec l tag c dgram out) (x : Block rq.Decoder),
      (c.blocks.set f.b.toNat x)[b.toNat]? = some .done := by
    intro out f x
    rw [List.getElem?_set_ne (fun he => f.ne_of_done h (UInt32.toNat.inj he.symm)), h]
  cases hm with
  | rejected | short | outOfRange | late => exact h
  | fed f => exact hset f _
  | writeFailed f => exact hset f _
  | stored f => exact hset f _

/-- A failed write: some bytes of the block's own range changed. -/
theorem Inv.writeFailed {dec : Decrypt} {l : Layout} {tag : UInt64} {c : Collect rq}
    {dgram data : Octets} (hi : c.Inv l) (f : Feed dec l tag c dgram (some data))
    (hlen : data.length = l.stop f.b - l.start f.b) (n : Nat) :
    Inv l { f.next with
      file := writeAt c.file (l.start f.b) (data.take n)
      ioErr := true } := by
  have hn := hi.fed f
  have htake : (data.take n).length ≤ l.stop f.b - l.start f.b := by
    rw [List.length_take]
    omega
  have hlt := Layout.start_lt_stop f.inRange
  have hle := l.stop_le f.b
  refine ⟨hn.blocks, ?_, hn.decoded, fun b hb => ?_, hn.acks⟩
  · rw [length_writeAt (by rw [hi.file]; omega), hi.file]
  · refine (hn.stored b hb).write hn f.inRange ?_ htake rfl rfl fun w hw => hw
    -- `b` is Done after the feed, so it is not the block being fed.
    intro he
    subst he
    simp [Feed.next, (List.getElem?_eq_some_iff.mp f.pending).1] at hb

theorem Inv.stored_step {dec : Decrypt} {l : Layout} {tag : UInt64} {c : Collect rq}
    {dgram data : Octets} (hi : c.Inv l) (f : Feed dec l tag c dgram (some data))
    (hlen : data.length = l.stop f.b - l.start f.b) {decoded : UInt32}
    (hdec : Checked.addU32 c.decoded 1 = .ok decoded) :
    Inv l { f.next with
      file := writeAt c.file (l.start f.b) data
      writes := c.writes ++ [⟨f.b, l.start f.b, data⟩]
      blocks := c.blocks.set f.b.toNat .done
      decoded
      pendingAcks := c.pendingAcks ++ [f.b] } := by
  have hin : f.b.toNat < c.blocks.length := (List.getElem?_eq_some_iff.mp f.pending).1
  have hget : c.blocks[f.b.toNat] = .pending f.slot := (List.getElem?_eq_some_iff.mp f.pending).2
  have hlt := Layout.start_lt_stop f.inRange
  have hle := l.stop_le f.b
  have hext : l.start f.b + data.length ≤ c.file.length := by rw [hi.file]; omega
  have hdone : ∀ b : UInt32, (c.blocks.set f.b.toNat .done)[b.toNat]? = some .done →
      b = f.b ∨ c.blocks[b.toNat]? = some .done := by
    intro b hb
    by_cases he : b = f.b
    · exact .inl he
    · rw [List.getElem?_set_ne fun h => he (UInt32.toNat.inj h.symm)] at hb
      exact .inr hb
  refine ⟨by simp [hi.blocks], ?_, ?_, fun b hb => ?_, fun b hb => ?_⟩
  · rw [length_writeAt hext, hi.file]
  · rw [Checked.addU32_eq_ok hdec, hi.decoded, List.countP_set hin]
    simp [hget, Block.isDone]
  · rcases hdone b hb with rfl | hb'
    · exact ⟨hb, data, by simp, hlen, holdsAt_writeAt hext⟩
    · refine (hi.stored b hb').write hi f.inRange (f.ne_of_done hb') hlen.le rfl ?_ fun w hw => ?_
      · rw [List.getElem?_set_ne fun h => f.ne_of_done hb' (UInt32.toNat.inj h.symm)]
      · exact List.mem_append_left _ hw
  · rcases List.mem_append.mp hb with hb | hb
    · rw [List.getElem?_set_ne fun h => f.ne_of_done (hi.acks b hb) (UInt32.toNat.inj h.symm)]
      exact hi.acks b hb
    · rw [List.mem_singleton.mp hb]
      simp [hin]

theorem Moved.inv {dec : Decrypt} {l : Layout} {tag : UInt64} {c c' : Collect rq}
    {dgram : Octets} (hm : Moved dec l tag c dgram c') (hi : c.Inv l) : c'.Inv l := by
  cases hm with
  | rejected => exact hi
  | short | outOfRange | late => exact hi.of_eq rfl rfl rfl rfl fun b hb => hb
  | fed f => exact hi.fed f
  | writeFailed f hlen n => exact hi.writeFailed f hlen n
  | stored f hlen hdec => exact hi.stored_step f hlen hdec

theorem report_eq_some {c : Collect rq} {tMs : UInt64} {f : Frame}
    (h : c.report tMs = .ok (some f)) :
    0 < c.pkts ∧ ∃ span, c.plane.seqSpan = .ok span ∧ f = .progress c.pkts span tMs := by
  unfold report at h
  split at h
  · next hpos =>
    simp only [Checked.bind_eq_ok, Checked.pure_eq_ok, Option.some.injEq] at h
    obtain ⟨span, hs, rfl⟩ := h
    exact ⟨hpos, span, hs, rfl⟩
  · cases h

theorem onTick_eq_ok {c c' : Collect rq} {tMs : UInt64} {f : Option Frame} :
    c.onTick tMs = .ok (f, c') ↔ c.report tMs = .ok f ∧
      ∃ ticks, Checked.addU32 c.ticks 1 = .ok ticks ∧ c' = { c with ticks } := by
  simp only [onTick, Checked.bind_eq_ok, Checked.pure_eq_ok, Prod.mk.injEq]
  constructor
  · rintro ⟨ticks, ht, f', hf, rfl, rfl⟩
    exact ⟨hf, ticks, ht, rfl⟩
  · rintro ⟨hf, ticks, ht, rfl⟩
    exact ⟨ticks, ht, f, hf, rfl, rfl⟩

theorem Inv.all_done {l : Layout} {c : Collect rq} (hi : c.Inv l)
    (h : ¬ c.decoded < l.numBlocks) {b : UInt32} (hb : b < l.numBlocks) :
    c.blocks[b.toNat]? = some .done := by
  rw [UInt32.lt_iff_toNat_lt, hi.decoded, ← hi.blocks, not_lt] at h
  have hall := List.countP_eq_length.mp (le_antisymm List.countP_le_length h)
  have hlt : b.toNat < c.blocks.length := by rw [hi.blocks]; exact UInt32.lt_iff_toNat_lt.mp hb
  have hdone := hall _ (List.getElem_mem hlt)
  rw [List.getElem?_eq_getElem hlt]
  cases hx : c.blocks[b.toNat] with
  | done => rfl
  | pending slot => rw [hx] at hdone; cases hdone

/-! ## Decoders -/

/-- `d` is the decoder of block `b` after packets that all satisfy `P b`. -/
def DecoderAfter (l : Layout) (P : UInt32 → EncodingPacket → Prop) (b : UInt32) (d : rq.Decoder) :
    Prop :=
  ∃ oti d₀ ps, l.oti rq b = .ok oti ∧ rq.newDecoder oti = .ok d₀ ∧ rq.feed d₀ ps = .ok d ∧
    ∀ p ∈ ps, P b p

/-- The decoder of block `b`, after packets that all satisfy `P b`, answered `data`. -/
def DecodedFrom (rq : Raptorq) (l : Layout) (P : UInt32 → EncodingPacket → Prop) (b : UInt32)
    (data : Octets) : Prop :=
  ∃ (d d' : rq.Decoder) (p : EncodingPacket), DecoderAfter l P b d ∧ P b p ∧
    rq.decode d p = .ok (some data, d')

/-- Every decoder has seen, and every write came from, packets that satisfy `P`. -/
structure Fed (l : Layout) (P : UInt32 → EncodingPacket → Prop) (c : Collect rq) : Prop where
  pending : ∀ (b : UInt32) d, c.blocks[b.toNat]? = some (.pending (some d)) → DecoderAfter l P b d
  writes : ∀ w ∈ c.writes, DecodedFrom rq l P w.block w.data

theorem fed_new (rq : Raptorq) (plane : RxPlane) (l : Layout) (P : UInt32 → EncodingPacket → Prop) :
    (new rq plane l).Fed l P where
  pending b d h := by
    simp only [new, List.getElem?_replicate] at h
    split at h <;> cases h
  writes w h := by cases h

/-- The decoder a call uses has seen packets of `P` only. -/
theorem Fed.decoderAfter {dec : Decrypt} {l : Layout} {tag : UInt64} {c : Collect rq}
    {dgram : Octets} {out : Option Octets} {P : UInt32 → EncodingPacket → Prop} (hf : c.Fed l P)
    (f : Feed dec l tag c dgram out) : DecoderAfter l P f.b f.d := by
  have hdec := f.decoder
  cases hslot : f.slot with
  | some d =>
    rw [hslot] at hdec
    cases hdec
    exact hf.pending f.b f.d (by rw [f.pending, hslot])
  | none =>
    rw [hslot] at hdec
    simp only [decoderOf, Checked.bind_eq_ok] at hdec
    obtain ⟨oti, hoti, hnew⟩ := hdec
    exact ⟨oti, f.d, [], hoti, hnew, rfl, fun p hp => by cases hp⟩

theorem Fed.next {dec : Decrypt} {l : Layout} {tag : UInt64} {c : Collect rq}
    {dgram : Octets} {out : Option Octets} {P : UInt32 → EncodingPacket → Prop} (hf : c.Fed l P)
    (f : Feed dec l tag c dgram out) (hP : P f.b f.packet) : f.next.Fed l P where
  pending b d h := by
    simp only [Feed.next, List.getElem?_set] at h
    split at h
    · next he =>
      obtain rfl : f.b = b := UInt32.toNat.inj he
      split at h
      · cases h
        obtain ⟨oti, d₀, ps, hoti, hnew, hfeed, hps⟩ := hf.decoderAfter f
        refine ⟨oti, d₀, ps ++ [f.packet], hoti, hnew, Raptorq.feed_append hfeed f.decodes, ?_⟩
        simpa [or_imp, forall_and, hP] using hps
      · cases h
    · exact hf.pending b d h
  writes := hf.writes

/-- A call that feeds a packet of `P`, or none, keeps what decoders have seen. -/
theorem Moved.fed_inv {dec : Decrypt} {l : Layout} {tag : UInt64} {c c' : Collect rq}
    {dgram : Octets} {P : UInt32 → EncodingPacket → Prop} (hm : Moved dec l tag c dgram c')
    (hf : c.Fed l P)
    (hP : ∀ {out} (f : Feed dec l tag c dgram out), P f.b f.packet) : c'.Fed l P := by
  cases hm with
  | rejected | short | outOfRange | late => exact ⟨hf.pending, hf.writes⟩
  | fed f => exact hf.next f (hP f)
  | writeFailed f => exact ⟨(hf.next f (hP f)).pending, hf.writes⟩
  | @stored data f hlen decoded hdec =>
    refine ⟨fun b d h => ?_, fun w hw => ?_⟩
    · simp only [List.getElem?_set] at h
      split at h
      · split at h <;> cases h
      · exact hf.pending b d h
    · rcases List.mem_append.mp hw with hw | hw
      · exact hf.writes w hw
      · rw [List.mem_singleton.mp hw]
        exact ⟨f.d, f.d', f.packet, hf.decoderAfter f, hP f, f.decodes⟩

end Collect

end AtpExperiment
