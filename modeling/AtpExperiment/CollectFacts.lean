/-
What datagrams can do to the receiver's collection loop.

`rejected_invisible`: a datagram that does not open might as well not have
arrived. `decode_in_contract_iff`: which datagrams keep the packets given to
the decoder inside raptorq's contract; the closure itself checks neither the
source block number nor the symbol length (`sbn_one_reaches_decoder`).
-/
import AtpExperiment.Collect

namespace AtpExperiment

open Octets Aead

variable {rq : Raptorq}

/-! ## Rejected datagrams -/

theorem Collect.onDatagram_none {dec : Decrypt} {l : Layout} {tag : UInt64} {c : Collect rq}
    {dgram : Octets} {w : WriteOutcome} {plane : RxPlane}
    (h : c.plane.open dec tag dgram = .ok (none, plane)) :
    c.onDatagram dec l tag dgram w = .ok c := by
  obtain rfl := RxPlane.open_none h
  rw [Collect.onDatagram, h]
  rfl

namespace Loop

theorem step_rejected {dec : Decrypt} {l : Layout} {tag : UInt64} {s s' : Loop rq}
    {e : LoopEvent} (h : step dec l tag s e = ([.opened none], s')) : s' = s := by
  cases s with
  | left c | failed c | panicked p => cases e <;> cases h
  | running c =>
  cases e with
  | batchEnd =>
    simp only [step] at h
    split at h
    · cases h
    · obtain ⟨h, -⟩ := Prod.mk.inj h
      cases hp : c.pendingAcks <;> rw [hp] at h <;> cases h
  | tick tMs =>
    simp only [step] at h
    split at h
    · cases h
    · next f _ _ =>
      obtain ⟨h, -⟩ := Prod.mk.inj h
      cases f <;> cases h
  | datagram dgram w =>
    simp only [step] at h
    split at h
    · cases h
    · next r plane hopen =>
      split at h
      · next hd =>
        obtain ⟨hr, -⟩ := Prod.mk.inj h
        cases hr
        rw [Collect.onDatagram_none hopen] at hd
        cases hd
      · next c' hd =>
        obtain ⟨hr, rfl⟩ := Prod.mk.inj h
        cases hr
        rw [Collect.onDatagram_none hopen] at hd
        cases hd
        rfl

/-- The events without the datagrams whose open returned `None`. -/
def kept (dec : Decrypt) (l : Layout) (tag : UInt64) : Loop rq → List LoopEvent → List LoopEvent
  | _, [] => []
  | s, e :: es =>
    let (obs, s') := step dec l tag s e
    if obs = [.opened none] then kept dec l tag s' es else e :: kept dec l tag s' es

theorem filter_of_step {dec : Decrypt} {l : Layout} {tag : UInt64} {s : Loop rq} {e : LoopEvent}
    (h : (step dec l tag s e).1 ≠ [.opened none]) :
    (step dec l tag s e).1.filter (· ≠ .opened none) = (step dec l tag s e).1 := by
  refine List.filter_eq_self.mpr fun o ho => ?_
  rw [decide_eq_true_eq]
  intro he
  subst he
  -- An open is the only observation of its step.
  cases s with
  | left c | failed c | panicked p => cases e <;> cases ho
  | running c =>
  cases e with
  | batchEnd =>
    simp only [step] at ho
    split at ho <;> simp at ho
  | tick tMs =>
    simp only [step] at ho
    split at ho <;> simp at ho
  | datagram dgram w =>
    simp only [step] at ho h
    split at ho
    · cases ho
    · next hopen =>
      simp only [hopen] at h
      split at ho <;> simp_all

/-- **Rejected datagrams are invisible.** For any AEAD, any state of the loop
and any events (datagrams, ends of batches, ticks), the run without the
datagrams that did not open returns the same results for all the others,
writes the same frames, and ends in the same state: window (so sequence
span), blocks, counters, pending acks and file, or the same panic. -/
theorem rejected_invisible (dec : Decrypt) (l : Layout) (tag : UInt64) (s : Loop rq)
    (es : List LoopEvent) :
    run dec l tag s (kept dec l tag s es) =
      ((run dec l tag s es).1.filter (· ≠ .opened none), (run dec l tag s es).2) := by
  induction es generalizing s with
  | nil => rfl
  | cons e es ih =>
    by_cases h : (step dec l tag s e).1 = [.opened none]
    · have hs : (step dec l tag s e).2 = s := step_rejected (Prod.ext h rfl)
      simp only [kept, run, h, if_true, hs]
      rw [ih]
      simp
    · simp only [kept, run, h, if_false]
      rw [ih, List.filter_append, filter_of_step h]

end Loop

/-! ## Decoder contract -/

namespace Collect

/-- The block and the packet the closure passes to `Decoder::decode`, if it
gets that far. -/
def decodeCall (dec : Decrypt) (l : Layout) (tag : UInt64) (c : Collect rq) (dgram : Octets) :
    Option (UInt32 × EncodingPacket) :=
  match c.plane.open dec tag dgram with
  | .ok (some (b, payload), _) =>
    if payload.length < 4 ∨ 2 ^ 64 ≤ c.pkts.toNat + 1 ∨ l.numBlocks ≤ b then none
    else
      match c.blocks[b.toNat]? with
      | some (.pending slot) =>
        match decoderOf l b slot, EncodingPacket.deserialize payload with
        | .ok _, .ok packet => some (b, packet)
        | _, _ => none
      | _ => none
  | _ => none

/-- A datagram that passes every guard of the closure: it opens to a payload
of at least four bytes for a pending block in range, whose decoder is there
or can be built. -/
structure Admits (dec : Decrypt) (l : Layout) (tag : UInt64) (c : Collect rq) (dgram : Octets)
    (b : UInt32) (payload : Octets) : Prop where
  opens : ∃ plane, c.plane.open dec tag dgram = .ok (some (b, payload), plane)
  four : 4 ≤ payload.length
  counted : c.pkts.toNat + 1 < 2 ^ 64
  inRange : b < l.numBlocks
  decoder : ∃ slot d, c.blocks[b.toNat]? = some (.pending slot) ∧ decoderOf l b slot = .ok d

theorem decodeCall_eq_some {dec : Decrypt} {l : Layout} {tag : UInt64} {c : Collect rq}
    {dgram : Octets} {b : UInt32} {p : EncodingPacket} :
    c.decodeCall dec l tag dgram = some (b, p) ↔
      Admits dec l tag c dgram b (p.payloadId ++ p.data) := by
  constructor
  · intro h
    unfold decodeCall at h
    split at h
    · next b' payload plane hopen =>
      split at h
      · cases h
      next hguard =>
      split at h
      · next slot hslot =>
        split at h
        · next d packet hd hp =>
          obtain ⟨rfl, rfl⟩ := Prod.mk.inj (Option.some.inj h)
          simp only [not_or, not_lt, not_le] at hguard
          obtain ⟨p', hp', hpay⟩ := EncodingPacket.deserialize_of_length hguard.1
          rw [hp] at hp'
          cases hp'
          rw [← hpay]
          exact ⟨⟨plane, hopen⟩, hguard.1, by omega, UInt32.not_le.mp hguard.2.2, slot, d, hslot,
            hd⟩
        · cases h
      · cases h
    · cases h
  · intro hx
    obtain ⟨⟨plane, hopen⟩, hfour, hcount, hrange, slot, d, hslot, hd⟩ := hx
    have hguard : ¬ ((p.payloadId ++ p.data).length < 4 ∨ 2 ^ 64 ≤ c.pkts.toNat + 1 ∨
        l.numBlocks ≤ b) := by
      simp only [not_or, not_lt, not_le]
      exact ⟨hfour, by omega, UInt32.not_le.mpr hrange⟩
    simp only [decodeCall, hopen, if_neg hguard, hslot, hd, EncodingPacket.deserialize_payload]

/-- The packet of `decodeCall` is the one given to the block's decoder. -/
theorem onDatagram_decodeCall {dec : Decrypt} {l : Layout} {tag : UInt64} {c : Collect rq}
    {dgram : Octets} {w : WriteOutcome} {b : UInt32} {p : EncodingPacket}
    (h : c.decodeCall dec l tag dgram = some (b, p)) :
    ∃ c' slot d, c.blocks[b.toNat]? = some (.pending slot) ∧ decoderOf l b slot = .ok d ∧
      c'.blocks = c.blocks ∧ c.onDatagram dec l tag dgram w =
        (do let (out, d) ← rq.decode d p; onDecoded l c' b d out w) := by
  obtain ⟨⟨plane, hopen⟩, hfour, hcount, hrange, slot, d, hslot, hd⟩ := decodeCall_eq_some.mp h
  refine ⟨{ c with plane, opened := c.opened ++ [dgram], pkts := c.pkts + 1 }, slot, d, hslot, hd,
    rfl, ?_⟩
  have hpkts : Checked.addU64 c.pkts 1 = .ok (c.pkts + 1) := Checked.addU64_of_lt hcount
  simp only [onDatagram, hopen, Checked.ok_bind, onPayload, if_neg (not_lt.mpr hfour), hpkts,
    if_neg (UInt32.not_le.mpr hrange), onSymbol, hslot, hd, EncodingPacket.deserialize_payload]

/-- Without one, no decoder is touched. -/
theorem onDatagram_no_decodeCall {dec : Decrypt} {l : Layout} {tag : UInt64} {c c' : Collect rq}
    {dgram : Octets} {w : WriteOutcome} (h : c.decodeCall dec l tag dgram = none)
    (hc : c.onDatagram dec l tag dgram w = .ok c') : c'.blocks = c.blocks := by
  simp only [onDatagram, Checked.bind_eq_ok] at hc
  obtain ⟨⟨r, plane⟩, hopen, hc⟩ := hc
  rcases r with _ | ⟨b, payload⟩
  · cases hc
    rfl
  simp only [onPayload] at hc
  split at hc
  · cases hc
    rfl
  next hfour =>
  simp only [Checked.bind_eq_ok] at hc
  obtain ⟨pkts, hpkts, hc⟩ := hc
  split at hc
  · cases hc
    rfl
  next hrange =>
  simp only [onSymbol] at hc
  split at hc
  · cases hc
  · simp only [Checked.bind_eq_ok, Checked.pure_eq_ok] at hc
    obtain ⟨late, -, rfl⟩ := hc
    rfl
  · -- The closure reached the decoder after all.
    next slot hslot =>
    simp only [Checked.bind_eq_ok] at hc
    obtain ⟨d, hd, p, hp, -⟩ := hc
    exfalso
    have hcount : c.pkts.toNat + 1 < 2 ^ 64 := by
      have h1 := Checked.addU64_eq_ok hpkts
      have h2 := pkts.toNat_lt
      have h3 : (1 : UInt64).toNat = 1 := rfl
      omega
    obtain ⟨p', hp', hpay⟩ := EncodingPacket.deserialize_of_length (not_lt.mp hfour)
    rw [hpay] at hopen hfour
    rw [decodeCall_eq_some.mpr ⟨⟨plane, hopen⟩, not_lt.mp hfour, hcount, UInt32.not_le.mp hrange,
      slot, d, hslot, hd⟩] at h
    cases h

end Collect

/-- What raptorq requires of a packet for block `b`: the one source block, and
a symbol of the size in the block's OTI. -/
def InContract (rq : Raptorq) (l : Layout) (b : UInt32) (p : EncodingPacket) : Prop :=
  p.sbn = 0 ∧ ∀ oti, l.oti rq b = .ok oti → p.data.length = rq.symbolSize oti

/-- A payload that starts with a zero byte and has exactly four bytes and a
symbol of block `b`. -/
def FullSymbol (rq : Raptorq) (l : Layout) (b : UInt32) (payload : Octets) : Prop :=
  payload.head? = some 0 ∧ ∀ oti, l.oti rq b = .ok oti → payload.length = 4 + rq.symbolSize oti

theorem inContract_iff {l : Layout} {b : UInt32} {p : EncodingPacket} :
    InContract rq l b p ↔ FullSymbol rq l b (p.payloadId ++ p.data) := by
  have hlen := p.length_payload
  have hhead : (p.payloadId ++ p.data).head? = some p.sbn := rfl
  simp only [InContract, FullSymbol, hhead, hlen, Option.some.injEq, Nat.add_left_cancel_iff]

namespace Loop

/-- The decoder calls of one event. -/
def stepCalls (dec : Decrypt) (l : Layout) (tag : UInt64) :
    Loop rq → LoopEvent → List (UInt32 × EncodingPacket)
  | .running c, .datagram dgram _ => (c.decodeCall dec l tag dgram).toList
  | _, _ => []

/-- The decoder calls of a run. -/
def decodeCalls (dec : Decrypt) (l : Layout) (tag : UInt64) :
    Loop rq → List LoopEvent → List (UInt32 × EncodingPacket)
  | _, [] => []
  | s, e :: es => stepCalls dec l tag s e ++ decodeCalls dec l tag (step dec l tag s e).2 es

theorem stepCalls_in_contract_iff {dec : Decrypt} {l : Layout} {tag : UInt64} {s : Loop rq}
    {e : LoopEvent} :
    (∀ b p, (b, p) ∈ stepCalls dec l tag s e → InContract rq l b p) ↔
      ∀ dgram w c, e = .datagram dgram w → s = .running c → ∀ b payload,
        c.Admits dec l tag dgram b payload → FullSymbol rq l b payload := by
  constructor
  · intro h dgram w c he he' b payload ha
    subst he
    subst he'
    obtain ⟨p, -, rfl⟩ := EncodingPacket.deserialize_of_length ha.four
    refine inContract_iff.mp (h b p ?_)
    rw [stepCalls, Collect.decodeCall_eq_some.mpr ha]
    simp
  · intro h b p hp
    cases s with
    | left c | failed c | panicked p => cases hp
    | running c =>
    cases e with
    | batchEnd | tick t => cases hp
    | datagram dgram w =>
      refine inContract_iff.mpr (h dgram w c rfl rfl b _ (Collect.decodeCall_eq_some.mp ?_))
      simpa [stepCalls] using hp

/-- **When the decoder stays inside its contract.** On either plane, for every
layout and every run of the loop: every packet passed to `Decoder::decode`
has source block number zero and a full-size symbol exactly when every
datagram that passes the closure's guards where it arrives carries a payload
that starts with zero and is four bytes longer than a symbol. -/
theorem decode_in_contract_iff (dec : Decrypt) (l : Layout) (tag : UInt64) (s : Loop rq)
    (es : List LoopEvent) :
    (∀ b p, (b, p) ∈ decodeCalls dec l tag s es → InContract rq l b p) ↔
      ∀ pre dgram w post c, es = pre ++ .datagram dgram w :: post →
        (run dec l tag s pre).2 = .running c → ∀ b payload,
        c.Admits dec l tag dgram b payload → FullSymbol rq l b payload := by
  induction es generalizing s with
  | nil =>
    refine iff_of_true (fun b p hp => by cases hp) fun pre dgram w post c he => ?_
    simp at he
  | cons e es ih =>
    have hsplit : (∀ b p, (b, p) ∈ decodeCalls dec l tag s (e :: es) → InContract rq l b p) ↔
        (∀ b p, (b, p) ∈ stepCalls dec l tag s e → InContract rq l b p) ∧
        ∀ b p, (b, p) ∈ decodeCalls dec l tag (step dec l tag s e).2 es → InContract rq l b p := by
      simp only [decodeCalls, List.mem_append, or_imp, forall_and]
    rw [hsplit, stepCalls_in_contract_iff, ih]
    constructor
    · intro hx pre dgram w post c he hrun
      obtain ⟨hstep, hrest⟩ := hx
      -- The datagram is the first event or a later one.
      cases pre with
      | nil =>
        obtain ⟨rfl, rfl⟩ := List.cons.inj he
        exact hstep dgram w c rfl hrun
      | cons e' pre =>
        obtain ⟨rfl, rfl⟩ := List.cons.inj he
        exact hrest pre dgram w post c rfl hrun
    · intro h
      refine ⟨fun dgram w c he hs => ?_, fun pre dgram w post c he hrun => ?_⟩
      · exact h [] dgram w es c (by rw [he]; rfl) (by rw [hs]; rfl)
      · exact h (e :: pre) dgram w post c (by rw [he]; rfl) hrun

/-- A plaintext datagram whose payload is `01 00 00 00`: the packet given to
the decoder names source block 1, and a decoder that indexes its source blocks
by it panics. -/
theorem sbn_one_reaches_decoder :
    ∃ l : Layout, Layout.new 128 128 64 = .ok l ∧
      let s : Loop .repetition := .running (.new .repetition .plain l)
      let es := [.datagram (Datagram.encode 7 0 [1, 0, 0, 0]) .ok]
      ¬ (∀ b p, (b, p) ∈ decodeCalls (fun _ _ _ _ => none) l 7 s es →
          InContract .repetition l b p) ∧
        (run (fun _ _ _ _ => none) l 7 s es).2 = .panicked .outOfBounds := by
  refine ⟨⟨128, 128, 64, 1, by decide, by decide, by decide, by decide⟩, by decide, ?_, rfl⟩
  intro h
  have := h 0 ⟨1, 0, [], by decide⟩ (by decide)
  exact absurd this.1 (by decide)

end Loop

end AtpExperiment
