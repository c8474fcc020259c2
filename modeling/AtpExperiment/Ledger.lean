/-
What the collection loop keeps of each block (`recv.rs`).

All blocks share one closure, one plane and one stream of datagrams. `Lone` is a
block on its own: a decoder given that block's packets one by one, until it
answers. `blocks_independent`: as long as no write has failed, every block is in
the state `Lone` is in after the packets of that block, in the order they came;
for any plane, any AEAD and any datagrams, whatever came for other blocks. The
decoder calls counted on the way are those the decoders have seen (`decoders_fed`).
-/
import AtpExperiment.CollectFacts
import AtpExperiment.CollectInv
import AtpExperiment.Lib.Runs
import Mathlib.Data.List.Induction

namespace AtpExperiment

open Octets Aead

variable {rq : Raptorq}

/-! ## A block on its own -/

/-- A block's decoder, if it has one yet, or what it answered. -/
inductive Lone (D : Type)
  | pending (slot : Option D)
  | answered (data : Octets)

namespace Lone

/-- After a decoder call. -/
def ofAnswer {D : Type} (d : D) : Option Octets → Lone D
  | none => .pending (some d)
  | some data => .answered data

/-- One packet. -/
def next (l : Layout) (b : UInt32) (x : Lone rq.Decoder) (p : EncodingPacket) :
    Checked (Lone rq.Decoder) :=
  match x with
  | .answered data => return .answered data
  | .pending slot => do
    let d ← Collect.decoderOf l b slot
    let (out, d) ← rq.decode d p
    return ofAnswer d out

/-- The packets `ps`, from a block without a decoder. -/
def after (rq : Raptorq) (l : Layout) (b : UInt32) (ps : List EncodingPacket) :
    Checked (Lone rq.Decoder) :=
  ps.foldlM (next l b) (.pending none)

theorem after_concat {l : Layout} {b : UInt32} {ps : List EncodingPacket} {p : EncodingPacket}
    {x : Lone rq.Decoder} (h : after rq l b ps = .ok x) :
    after rq l b (ps ++ [p]) = x.next l b p := by
  unfold after at h ⊢
  rw [List.foldlM_append, h, Checked.ok_bind, List.foldlM_cons]
  simp

/-- A block that still has no answer: its decoder was given every packet, and
answered nothing to the last one. -/
theorem after_pending {l : Layout} {b : UInt32} {ps : List EncodingPacket}
    {slot : Option rq.Decoder} (h : after rq l b ps = .ok (.pending slot)) :
    (ps = [] ∧ slot = none) ∨ ∃ oti d₀ pre p d d', slot = some d' ∧ l.oti rq b = .ok oti ∧
      rq.newDecoder oti = .ok d₀ ∧ ps = pre ++ [p] ∧ rq.feed d₀ pre = .ok d ∧
      rq.decode d p = .ok (none, d') := by
  induction ps using List.reverseRecOn generalizing slot with
  | nil =>
    cases h
    exact .inl ⟨rfl, rfl⟩
  | append_singleton ps p ih =>
    -- The packets before the last one gave no answer either.
    rcases hx : after rq l b ps with e | x
    · simp only [after] at h hx
      rw [List.foldlM_append, hx] at h
      cases h
    rw [after_concat hx] at h
    cases x with
    | answered data => cases h
    | pending slot' =>
      simp only [next, Checked.bind_eq_ok, Checked.pure_eq_ok] at h
      obtain ⟨d, hd, ⟨out, d'⟩, hdec, h⟩ := h
      cases out with
      | some data => cases h
      | none =>
        cases h
        right
        rcases ih hx with ⟨rfl, rfl⟩ | ⟨oti, d₀, pre, q, e, d'', rfl, hoti, hnew, rfl, hfeed, hq⟩
        · simp only [Collect.decoderOf, Checked.bind_eq_ok] at hd
          obtain ⟨oti, hoti, hnew⟩ := hd
          exact ⟨oti, d, [], p, d, d', rfl, hoti, hnew, rfl, rfl, hdec⟩
        · cases hd
          exact ⟨oti, d₀, _, p, d, d', rfl, hoti, hnew, rfl, Raptorq.feed_append hfeed hq, hdec⟩

end Lone

/-! ## Packets by block -/

/-- The packets of block `b`, in order. -/
def packetsOf (b : UInt32) (got : List (UInt32 × EncodingPacket)) : List EncodingPacket :=
  (got.filter (·.1 = b)).map Prod.snd

theorem packetsOf_concat (b : UInt32) (got : List (UInt32 × EncodingPacket))
    (y : UInt32 × EncodingPacket) :
    packetsOf b (got ++ [y]) = packetsOf b got ++ if y.1 = b then [y.2] else [] := by
  unfold packetsOf
  rw [List.filter_append, List.map_append]
  by_cases h : y.1 = b <;> simp [h]

namespace Collect

/-- The loop keeps of block `b` what `x` is, with its answer written. -/
def Keeps (l : Layout) (c : Collect rq) (b : UInt32) : Lone rq.Decoder → Prop
  | .pending slot => c.blocks[b.toNat]? = some (.pending slot)
  | .answered data => c.blocks[b.toNat]? = some .done ∧ ⟨b, l.start b, data⟩ ∈ c.writes

/-- As long as no write has failed, every block is as if alone with its packets
of `got`. -/
def Ledger (l : Layout) (c : Collect rq) (got : List (UInt32 × EncodingPacket)) : Prop :=
  c.ioErr = false → ∀ b, b < l.numBlocks →
    ∃ x, Lone.after rq l b (packetsOf b got) = .ok x ∧ c.Keeps l b x

theorem ledger_new (rq : Raptorq) (plane : RxPlane) (l : Layout) :
    (new rq plane l).Ledger l [] := by
  intro _ b hb
  refine ⟨.pending none, rfl, ?_⟩
  have := UInt32.lt_iff_toNat_lt.mp hb
  simp [Keeps, new, this]

theorem Keeps.of_eq {l : Layout} {c c' : Collect rq} {b : UInt32} {x : Lone rq.Decoder}
    (h : c.Keeps l b x) (hb : c'.blocks[b.toNat]? = c.blocks[b.toNat]?)
    (hw : ∀ w ∈ c.writes, w ∈ c'.writes) : c'.Keeps l b x := by
  cases x with
  | pending slot => exact hb.trans h
  | answered data => exact ⟨hb.trans h.1, hw _ h.2⟩

theorem Ledger.of_eq {l : Layout} {c c' : Collect rq} {got : List (UInt32 × EncodingPacket)}
    (h : c.Ledger l got) (hb : c'.blocks = c.blocks) (hw : c'.writes = c.writes)
    (hio : c'.ioErr = c.ioErr) : c'.Ledger l got := by
  intro hio' b hlt
  obtain ⟨x, hx, hk⟩ := h (by rw [← hio, hio']) b hlt
  exact ⟨x, hx, hk.of_eq (by rw [hb]) (by simp [hw])⟩

/-- One more packet for block `b`, which takes the block where `Lone.next` takes
it and leaves the others. -/
theorem Ledger.concat {l : Layout} {c c' : Collect rq} {got : List (UInt32 × EncodingPacket)}
    {b : UInt32} {p : EncodingPacket} (h : c.Ledger l got)
    (hio : c'.ioErr = false → c.ioErr = false)
    (hb : c'.ioErr = false → ∀ x, c.Keeps l b x → ∃ x', x.next l b p = .ok x' ∧ c'.Keeps l b x')
    (hne : ∀ b', b' ≠ b → c'.blocks[b'.toNat]? = c.blocks[b'.toNat]?)
    (hw : ∀ w ∈ c.writes, w ∈ c'.writes) : c'.Ledger l (got ++ [(b, p)]) := by
  intro hio' b' hlt
  obtain ⟨x, hx, hk⟩ := h (hio hio') b' hlt
  rw [packetsOf_concat]
  by_cases he : b = b'
  · subst he
    obtain ⟨x', hx', hk'⟩ := hb hio' x hk
    exact ⟨x', by simp only [if_true, Lone.after_concat hx, hx'], hk'⟩
  · refine ⟨x, by simp only [he, if_false, List.append_nil, hx], ?_⟩
    exact hk.of_eq (hne b' (Ne.symm he)) hw

theorem Ledger.late {l : Layout} {c c' : Collect rq} {got : List (UInt32 × EncodingPacket)}
    {b : UInt32} {p : EncodingPacket} (h : c.Ledger l got) (hd : c.blocks[b.toNat]? = some .done)
    (hb : c'.blocks = c.blocks) (hw : c'.writes = c.writes) (hio : c'.ioErr = c.ioErr) :
    c'.Ledger l (got ++ [(b, p)]) := by
  refine h.concat (by simp [hio]) (fun _ x hk => ?_) (by simp [hb]) (by simp [hw])
  cases x with
  | pending slot =>
    rw [Keeps, hd] at hk
    cases hk
  | answered data => exact ⟨_, rfl, hk.of_eq (by rw [hb]) (by simp [hw])⟩

theorem Feed.lone {dec : Decrypt} {l : Layout} {tag : UInt64} {c : Collect rq} {dgram : Octets}
    {out : Option Octets} (f : Feed dec l tag c dgram out) {x : Lone rq.Decoder}
    (hk : c.Keeps l f.b x) : x.next l f.b f.packet = .ok (.ofAnswer f.d' out) := by
  cases x with
  | answered data =>
    have := hk.1
    rw [f.pending] at this
    cases this
  | pending slot =>
    have hslot : slot = f.slot := by
      rw [Keeps, f.pending] at hk
      simpa using hk.symm
    simp only [Lone.next, hslot, f.decoder, f.decodes, Checked.ok_bind]
    rfl

theorem Feed.blocks_ne {dec : Decrypt} {l : Layout} {tag : UInt64} {c : Collect rq} {dgram : Octets}
    {out : Option Octets} (f : Feed dec l tag c dgram out) (x : Block rq.Decoder) {b : UInt32}
    (h : b ≠ f.b) : (c.blocks.set f.b.toNat x)[b.toNat]? = c.blocks[b.toNat]? :=
  List.getElem?_set_ne fun he => h (UInt32.toNat.inj he.symm)

theorem Feed.blocks_self {dec : Decrypt} {l : Layout} {tag : UInt64} {c : Collect rq}
    {dgram : Octets} {out : Option Octets} (f : Feed dec l tag c dgram out)
    (x : Block rq.Decoder) : (c.blocks.set f.b.toNat x)[f.b.toNat]? = some x := by
  simp [(List.getElem?_eq_some_iff.mp f.pending).1]

/-- The packet a payload for block `b` is, where the closure looks at it. -/
def packetIn (l : Layout) (b : UInt32) (payload : Octets) : Option (UInt32 × EncodingPacket) :=
  if b < l.numBlocks then (EncodingPacket.deserialize payload).toOption.map (b, ·) else none

theorem packetIn_of_lt {l : Layout} {b : UInt32} {payload : Octets} {p : EncodingPacket}
    (hb : b < l.numBlocks) (hp : EncodingPacket.deserialize payload = .ok p) :
    packetIn l b payload = some (b, p) := by
  simp [packetIn, hb, hp, Except.toOption]

theorem packetIn_of_short {l : Layout} {b : UInt32} {payload : Octets} (h : payload.length < 4) :
    packetIn l b payload = none := by
  have hdes : (EncodingPacket.deserialize payload).toOption = none := by
    rcases payload with _ | ⟨b₀, _ | ⟨b₁, _ | ⟨b₂, _ | ⟨b₃, data⟩⟩⟩⟩
    · rfl
    · rfl
    · rfl
    · rfl
    · simp only [List.length_cons] at h
      omega
  simp [packetIn, hdes]

/-- A call of the closure adds the packet it was given, if any, to its block. -/
theorem Moved.ledger {dec : Decrypt} {l : Layout} {tag : UInt64} {c c' : Collect rq}
    {dgram : Octets} {got : List (UInt32 × EncodingPacket)} (hm : Moved dec l tag c dgram c')
    (h : c.Ledger l got) : c' = c ∨ ∃ b payload plane,
      c.plane.open dec tag dgram = .ok (some (b, payload), plane) ∧
        c'.opened = c.opened ++ [dgram] ∧
        c'.Ledger l (got ++ (packetIn l b payload).toList) := by
  cases hm with
  | rejected => exact .inl rfl
  | @short b payload plane hopen hlen =>
    refine .inr ⟨b, payload, plane, hopen, rfl, ?_⟩
    rw [packetIn_of_short hlen, Option.toList_none, List.append_nil]
    exact h.of_eq rfl rfl rfl
  | @outOfRange b payload plane pkts hopen hpkts hb =>
    refine .inr ⟨b, payload, plane, hopen, rfl, ?_⟩
    have hnone : packetIn l b payload = none := if_neg (UInt32.not_lt.mpr hb)
    rw [hnone, Option.toList_none, List.append_nil]
    exact h.of_eq rfl rfl rfl
  | @late b payload plane pkts latePkts hopen hpkts hd =>
    refine .inr ⟨b, payload, plane, hopen, rfl, ?_⟩
    cases hp : packetIn l b payload with
    | none =>
      rw [Option.toList_none, List.append_nil]
      exact h.of_eq rfl rfl rfl
    | some y =>
      obtain ⟨-, p, -, rfl⟩ : b < l.numBlocks ∧
          ∃ p, (EncodingPacket.deserialize payload).toOption = some p ∧ (b, p) = y := by
        simpa [packetIn] using hp
      exact h.late hd rfl rfl rfl
  | fed f =>
    refine .inr ⟨f.b, f.payload, f.plane, f.opens, rfl, ?_⟩
    rw [packetIn_of_lt f.inRange f.deserialized]
    exact h.concat (fun hio => hio) (fun _ x hk => ⟨_, f.lone hk, f.blocks_self _⟩)
      (fun b hb => f.blocks_ne _ hb) fun w hw => hw
  | writeFailed f hlen n =>
    refine .inr ⟨f.b, f.payload, f.plane, f.opens, rfl, ?_⟩
    intro hio
    cases hio
  | stored f hlen hdec =>
    refine .inr ⟨f.b, f.payload, f.plane, f.opens, rfl, ?_⟩
    rw [packetIn_of_lt f.inRange f.deserialized]
    exact h.concat (fun hio => hio)
      (fun _ x hk => ⟨_, f.lone hk, f.blocks_self _, List.mem_append_right _ (by simp)⟩)
      (fun b hb => f.blocks_ne _ hb) fun w hw => List.mem_append_left _ hw

/-! ## Counters -/

/-- A packet for a block in range: late when the block is Done, and given to its
decoder otherwise. -/
theorem onSymbol_counts {l : Layout} {c c' : Collect rq} {b : UInt32} {payload : Octets}
    {w : WriteOutcome} (h : c.onSymbol l b payload w = .ok c') :
    c'.pkts = c.pkts ∧ c'.opened = c.opened ∧
      ((c.blocks[b.toNat]? = some .done ∧ c'.latePkts.toNat = c.latePkts.toNat + 1) ∨
        (∃ slot d, c.blocks[b.toNat]? = some (.pending slot) ∧ decoderOf l b slot = .ok d) ∧
          c'.latePkts = c.latePkts) := by
  unfold onSymbol at h
  split at h
  · cases h
  · next hd =>
    simp only [Checked.bind_eq_ok, Checked.pure_eq_ok] at h
    obtain ⟨late, hlate, rfl⟩ := h
    exact ⟨rfl, rfl, .inl ⟨hd, Checked.addU64_eq_ok hlate⟩⟩
  · next slot hslot =>
    simp only [Checked.bind_eq_ok] at h
    obtain ⟨d, hd, packet, -, ⟨out, d'⟩, -, h⟩ := h
    suffices hc : c'.pkts = c.pkts ∧ c'.opened = c.opened ∧ c'.latePkts = c.latePkts from
      ⟨hc.1, hc.2.1, .inr ⟨⟨slot, d, hslot, hd⟩, hc.2.2⟩⟩
    cases out with
    | none =>
      cases h
      exact ⟨rfl, rfl, rfl⟩
    | some data =>
      simp only [onDecoded, store, Checked.bind_eq_ok] at h
      obtain ⟨len, -, h⟩ := h
      split at h
      · cases h
      simp only [Checked.bind_eq_ok] at h
      obtain ⟨r, -, h⟩ := h
      cases w with
      | fail n =>
        cases h
        exact ⟨rfl, rfl, rfl⟩
      | ok =>
        simp only [Checked.bind_eq_ok, Checked.pure_eq_ok] at h
        obtain ⟨decoded, -, rfl⟩ := h
        exact ⟨rfl, rfl, rfl⟩

/-- What a call of the closure counts: every payload of four bytes is a packet;
one for a block in range is late or a decoder call. -/
theorem onDatagram_counts {dec : Decrypt} {l : Layout} {tag : UInt64} {c c' : Collect rq}
    {dgram payload : Octets} {w : WriteOutcome} {b : UInt32} {plane : RxPlane}
    (hopen : c.plane.open dec tag dgram = .ok (some (b, payload), plane))
    (h : c.onDatagram dec l tag dgram w = .ok c') :
    c'.opened = c.opened ++ [dgram] ∧
      c'.pkts.toNat = c.pkts.toNat + (if 4 ≤ payload.length then 1 else 0) ∧
      c'.latePkts.toNat + (c.decodeCall dec l tag dgram).toList.length =
        c.latePkts.toNat + (packetIn l b payload).toList.length := by
  simp only [onDatagram, hopen, Checked.ok_bind, onPayload] at h
  split at h
  · next hlen =>
    cases h
    have hcall : c.decodeCall dec l tag dgram = none := by simp [decodeCall, hopen, hlen]
    simp [packetIn_of_short hlen, hcall, not_le.mpr hlen]
  next hfour =>
  simp only [Checked.bind_eq_ok] at h
  obtain ⟨pkts, hpkts, h⟩ := h
  have hcount := Checked.addU64_eq_ok hpkts
  simp only [UInt64.toNat_one] at hcount
  simp only [not_lt.mp hfour, if_true]
  split at h
  · next hb =>
    cases h
    have hcall : c.decodeCall dec l tag dgram = none := by simp [decodeCall, hopen, hb]
    simp [packetIn, UInt32.not_lt.mpr hb, hcall, hcount]
  next hb =>
  have hlt := UInt32.not_le.mp hb
  obtain ⟨p, hp, hpay⟩ := EncodingPacket.deserialize_of_length (not_lt.mp hfour)
  rw [packetIn_of_lt hlt hp]
  obtain ⟨hsame, hopened, ⟨hd, hlate⟩ | ⟨⟨slot, d, hslot, hdec⟩, hlate⟩⟩ := onSymbol_counts h
  · have hcall : c.decodeCall dec l tag dgram = none := by
      have hd' : c.blocks[b.toNat]? = some .done := hd
      simp [decodeCall, hopen, hd']
    refine ⟨hopened, by rw [hsame, hcount], ?_⟩
    simp [hcall, hlate]
  · have hbound : c.pkts.toNat + 1 < 2 ^ 64 := by
      have := pkts.toNat_lt
      omega
    have hcall : c.decodeCall dec l tag dgram = some (b, p) := by
      subst hpay
      exact decodeCall_eq_some.mpr
        ⟨⟨plane, hopen⟩, not_lt.mp hfour, hbound, hlt, slot, d, hslot, hdec⟩
    refine ⟨hopened, by rw [hsame, hcount], ?_⟩
    simp [hcall, hlate]

/-- A block's slot after the decoder calls with `ps`. -/
def FedBy (l : Layout) (b : UInt32) : Option rq.Decoder → List EncodingPacket → Prop
  | none, ps => ps = []
  | some d, ps => ∃ d₀, decoderOf l b none = .ok d₀ ∧ rq.feed d₀ ps = .ok d

theorem FedBy.concat {l : Layout} {b : UInt32} {slot : Option rq.Decoder} {d d' : rq.Decoder}
    {ps : List EncodingPacket} {p : EncodingPacket} {out : Option Octets} (h : FedBy l b slot ps)
    (hd : decoderOf l b slot = .ok d) (hp : rq.decode d p = .ok (out, d')) :
    FedBy l b (some d') (ps ++ [p]) := by
  cases slot with
  | none =>
    rw [show ps = [] from h]
    exact ⟨d, hd, Raptorq.feed_append (show rq.feed _ [] = .ok _ from rfl) hp⟩
  | some d₁ =>
    obtain ⟨d₀, hnew, hfeed⟩ := h
    cases hd
    exact ⟨d₀, hnew, Raptorq.feed_append hfeed hp⟩

theorem onDecoded_blocks {l : Layout} {c c' : Collect rq} {b : UInt32} {d : rq.Decoder}
    {out : Option Octets} {w : WriteOutcome} (h : c.onDecoded l b d out w = .ok c') :
    c'.blocks = c.blocks.set b.toNat (.pending (some d)) ∨
      c'.blocks = c.blocks.set b.toNat .done := by
  cases out with
  | none =>
    cases h
    exact .inl rfl
  | some data =>
    simp only [onDecoded, store, Checked.bind_eq_ok] at h
    obtain ⟨len, -, h⟩ := h
    split at h
    · cases h
    simp only [Checked.bind_eq_ok] at h
    obtain ⟨r, -, h⟩ := h
    cases w with
    | fail n =>
      cases h
      exact .inl rfl
    | ok =>
      simp only [Checked.bind_eq_ok, Checked.pure_eq_ok] at h
      obtain ⟨decoded, -, rfl⟩ := h
      exact .inr (List.set_set ..)

/-- Every block that is not Done has a decoder that was given the packets of its
calls, or had none. -/
def FedCalls (l : Layout) (c : Collect rq) (calls : List (UInt32 × EncodingPacket)) : Prop :=
  ∀ (b : UInt32) slot, c.blocks[b.toNat]? = some (.pending slot) →
    FedBy l b slot (packetsOf b calls)

theorem FedCalls.onDatagram {dec : Decrypt} {l : Layout} {tag : UInt64} {c c' : Collect rq}
    {dgram : Octets} {w : WriteOutcome} {calls : List (UInt32 × EncodingPacket)}
    (h : c.FedCalls l calls) (hc : c.onDatagram dec l tag dgram w = .ok c') :
    c'.FedCalls l (calls ++ (c.decodeCall dec l tag dgram).toList) := by
  intro b slot hb
  cases hcall : c.decodeCall dec l tag dgram with
  | none =>
    rw [onDatagram_no_decodeCall hcall hc] at hb
    rw [Option.toList_none, List.append_nil]
    exact h b slot hb
  | some x =>
    obtain ⟨b₁, p⟩ := x
    obtain ⟨c₁, slot₁, d, hslot, hd, hsame, heq⟩ := onDatagram_decodeCall (w := w) hcall
    rw [heq] at hc
    simp only [Checked.bind_eq_ok] at hc
    obtain ⟨⟨out, d'⟩, hp, hc⟩ := hc
    rw [Option.toList_some, packetsOf_concat]
    by_cases hne : b₁ = b
    · subst hne
      rw [if_pos rfl]
      have hlt := (List.getElem?_eq_some_iff.mp hslot).1
      rcases onDecoded_blocks hc with he | he <;> rw [he, hsame, List.getElem?_set_self hlt] at hb
      · cases hb
        exact (h b₁ slot₁ hslot).concat hd hp
      · cases hb
    · have hidx : b₁.toNat ≠ b.toNat := fun he => hne (UInt32.toNat.inj he)
      rw [if_neg hne, List.append_nil]
      rcases onDecoded_blocks hc with he | he <;>
      · rw [he, hsame, List.getElem?_set_ne hidx] at hb
        exact h b slot hb

theorem Ledger.onDatagram {dec : Decrypt} {l : Layout} {tag : UInt64} {c c' : Collect rq}
    {dgram payload : Octets} {w : WriteOutcome} {b : UInt32} {plane : RxPlane}
    {got : List (UInt32 × EncodingPacket)} (h : c.Ledger l got)
    (hopen : c.plane.open dec tag dgram = .ok (some (b, payload), plane))
    (hc : c.onDatagram dec l tag dgram w = .ok c') :
    c'.Ledger l (got ++ (packetIn l b payload).toList) := by
  rcases (onDatagram_moved hc).ledger h with rfl | ⟨b', payload', plane', hopen', -, hl⟩
  · have hopened := (onDatagram_counts hopen hc).1
    simp at hopened
  · cases hopen.symm.trans hopen'
    exact hl

end Collect

/-! ## The loop -/

namespace Loop

/-- The locals, unless the loop panicked. -/
def locals : Loop rq → Option (Collect rq)
  | .running c | .left c | .failed c => some c
  | .panicked _ => none

/-- The packet of an opened datagram, where the closure looks at it. -/
def got (l : Layout) : LoopObs → Option (UInt32 × EncodingPacket)
  | .opened (some (b, payload)) => Collect.packetIn l b payload
  | _ => none

/-- Whether the closure counts what was opened as a packet. -/
def counted : LoopObs → Bool
  | .opened (some (_, payload)) => 4 ≤ payload.length
  | _ => false

/-- The locals after the observations `obs` and the decoder calls `calls`: every
block as if alone, its decoder as its calls left it, and the counters those of what
was opened. -/
structure Accounts (l : Layout) (c : Collect rq) (obs : List LoopObs)
    (calls : List (UInt32 × EncodingPacket)) : Prop where
  blocks : c.Ledger l (obs.filterMap (got l))
  fed : c.FedCalls l calls
  pkts : c.pkts.toNat = obs.countP counted
  late : c.latePkts.toNat + calls.length = (obs.filterMap (got l)).length

theorem accounts_new (rq : Raptorq) (plane : RxPlane) (l : Layout) :
    Accounts l (Collect.new rq plane l) [] [] := by
  refine ⟨Collect.ledger_new rq plane l, fun b slot hb => ?_, rfl, rfl⟩
  simp only [Collect.new, List.getElem?_replicate, Option.ite_none_right_eq_some] at hb
  cases hb.2
  rfl

theorem filterMap_wrote (l : Layout) (fs : List Frame) :
    (fs.map LoopObs.wrote).filterMap (got l) = [] ∧ (fs.map LoopObs.wrote).countP counted = 0 := by
  induction fs with
  | nil => exact ⟨rfl, rfl⟩
  | cons f fs ih => exact ⟨ih.1, by rw [List.map_cons, List.countP_cons, ih.2]; rfl⟩

theorem Accounts.wrote {l : Layout} {c c' : Collect rq} {obs : List LoopObs}
    {calls : List (UInt32 × EncodingPacket)} (h : Accounts l c obs calls) (fs : List Frame)
    (hb : c'.blocks = c.blocks) (hw : c'.writes = c.writes) (hio : c'.ioErr = c.ioErr)
    (hp : c'.pkts = c.pkts) (hl : c'.latePkts = c.latePkts) :
    Accounts l c' (obs ++ fs.map .wrote) calls := by
  obtain ⟨hgot, hcount⟩ := filterMap_wrote l fs
  refine ⟨?_, fun b slot hslot => h.fed b slot (by rwa [hb] at hslot), ?_, ?_⟩
  · rw [List.filterMap_append, hgot, List.append_nil]
    exact h.blocks.of_eq hb hw hio
  · rw [List.countP_append, hcount, hp, h.pkts, Nat.add_zero]
  · rw [List.filterMap_append, hgot, List.append_nil, hl, h.late]

theorem Accounts.datagram {dec : Decrypt} {l : Layout} {tag : UInt64} {c c' : Collect rq}
    {obs : List LoopObs} {calls : List (UInt32 × EncodingPacket)} (h : Accounts l c obs calls)
    {dgram : Octets} {w : WriteOutcome} {r : Option (UInt32 × Octets)} {plane : RxPlane}
    (hopen : c.plane.open dec tag dgram = .ok (r, plane))
    (hc : c.onDatagram dec l tag dgram w = .ok c') :
    Accounts l c' (obs ++ [.opened r]) (calls ++ (c.decodeCall dec l tag dgram).toList) := by
  have hgot : (obs ++ [LoopObs.opened r]).filterMap (got l) =
      obs.filterMap (got l) ++ (got l (.opened r)).toList := Runs.filterMap_concat _ _ _
  rcases r with _ | ⟨b, payload⟩
  · rw [Collect.onDatagram_none hopen] at hc
    cases hc
    have hcall : c.decodeCall dec l tag dgram = none := by simp [Collect.decodeCall, hopen]
    simp only [got, Option.toList_none, List.append_nil] at hgot
    rw [hcall, Option.toList_none, List.append_nil]
    refine ⟨by rw [hgot]; exact h.blocks, h.fed, by simp [counted, h.pkts], ?_⟩
    rw [hgot, h.late]
  · obtain ⟨-, hpkts, hlate⟩ := Collect.onDatagram_counts hopen hc
    simp only [got] at hgot
    refine ⟨by rw [hgot]; exact h.blocks.onDatagram hopen hc, h.fed.onDatagram hc, ?_, ?_⟩
    · rw [List.countP_append, hpkts, h.pkts]
      simp [counted]
    · have := h.late
      rw [hgot, List.length_append, List.length_append]
      omega

/-- One event keeps the accounts. -/
theorem step_accounts {dec : Decrypt} {l : Layout} {tag : UInt64} {s : Loop rq} {e : LoopEvent}
    {obs : List LoopObs} {calls : List (UInt32 × EncodingPacket)}
    (hs : ∀ c, s.locals = some c → Accounts l c obs calls) {c : Collect rq}
    (hc : (step dec l tag s e).2.locals = some c) :
    Accounts l c (obs ++ (step dec l tag s e).1) (calls ++ stepCalls dec l tag s e) := by
  cases s with
  | panicked p => cases e <;> cases hc
  | left c₀ | failed c₀ =>
    cases e <;> simp only [step, stepCalls, List.append_nil] at hc ⊢ <;> exact hs c hc
  | running c₀ =>
    have h := hs c₀ rfl
    cases e with
    | datagram dgram w =>
      simp only [step] at hc ⊢
      cases hopen : c₀.plane.open dec tag dgram with
      | error p => simp [hopen, locals] at hc
      | ok x =>
        obtain ⟨r, plane⟩ := x
        cases hd : c₀.onDatagram dec l tag dgram w with
        | error p => simp [hopen, hd, locals] at hc
        | ok c₁ =>
          simp only [hopen, hd, locals, Option.some.injEq] at hc
          subst hc
          exact h.datagram hopen hd
    | batchEnd =>
      simp only [step, stepCalls, List.append_nil] at hc ⊢
      by_cases hio : c₀.ioErr = true
      · rw [if_pos hio] at hc ⊢
        cases hc
        rwa [List.append_nil]
      · rw [if_neg hio] at hc ⊢
        have hacks : Accounts l { c₀ with pendingAcks := [] }
            (obs ++ (c₀.pendingAcks.map Frame.blockDecoded).map .wrote) calls :=
          h.wrote _ rfl rfl rfl rfl rfl
        rw [List.map_map] at hacks
        by_cases hlt : c₀.decoded < l.numBlocks
        · rw [if_pos hlt] at hc
          cases hc
          exact hacks
        · rw [if_neg hlt] at hc
          cases hc
          exact hacks
    | tick tMs =>
      simp only [step, stepCalls, List.append_nil] at hc ⊢
      cases hf : c₀.onTick tMs with
      | error p => simp [hf, locals] at hc
      | ok x =>
        obtain ⟨f, c₁⟩ := x
        simp only [hf, locals, Option.some.injEq] at hc
        subst hc
        obtain ⟨-, ticks, -, rfl⟩ := Collect.onTick_eq_ok.mp hf
        exact h.wrote f.toList rfl rfl rfl rfl rfl

theorem run_accounts {dec : Decrypt} {l : Layout} {tag : UInt64} {s : Loop rq}
    {es : List LoopEvent} {obs : List LoopObs} {calls : List (UInt32 × EncodingPacket)}
    (hs : ∀ c, s.locals = some c → Accounts l c obs calls) {c : Collect rq}
    (hc : (run dec l tag s es).2.locals = some c) :
    Accounts l c (obs ++ (run dec l tag s es).1) (calls ++ decodeCalls dec l tag s es) := by
  induction es generalizing s obs calls with
  | nil => simpa [run, decodeCalls] using hs c hc
  | cons e es ih =>
    have hstep : ∀ c', (step dec l tag s e).2.locals = some c' →
        Accounts l c' (obs ++ (step dec l tag s e).1) (calls ++ stepCalls dec l tag s e) :=
      fun c' hc' => step_accounts hs hc'
    simpa [run, decodeCalls] using ih hstep hc

theorem accounts_of_run {dec : Decrypt} {l : Layout} {tag : UInt64} {plane : RxPlane}
    {es : List LoopEvent} {obs : List LoopObs} {s : Loop rq} {c : Collect rq}
    (hrun : run dec l tag (.running (.new rq plane l)) es = (obs, s)) (hc : s.locals = some c) :
    Accounts l c obs (decodeCalls dec l tag (.running (.new rq plane l)) es) := by
  have h : Accounts l c ([] ++ (run dec l tag (.running (.new rq plane l)) es).1)
      ([] ++ decodeCalls dec l tag (.running (.new rq plane l)) es) := by
    refine run_accounts (fun c' hc' => ?_) (by rw [hrun]; exact hc)
    cases hc'
    exact accounts_new rq plane l
  rwa [hrun] at h

/-- The decoder calls of a run are those its decoders have seen: after any run that
does not panic, also past a failed write, the decoder of a block that is not Done is
a new one that was given the packets of that block's calls, in order. -/
theorem decoders_fed (dec : Decrypt) (l : Layout) (tag : UInt64) (plane : RxPlane)
    (es : List LoopEvent) {obs : List LoopObs} {s : Loop rq} {c : Collect rq}
    (hrun : run dec l tag (.running (.new rq plane l)) es = (obs, s)) (hc : s.locals = some c)
    {b : UInt32} {slot : Option rq.Decoder} (hb : c.blocks[b.toNat]? = some (.pending slot)) :
    Collect.FedBy l b slot
      (packetsOf b (decodeCalls dec l tag (.running (.new rq plane l)) es)) :=
  (accounts_of_run hrun hc).fed b slot hb

/-- **Blocks are independent.** In every run of the collection loop that does not
panic, for any plane, AEAD, tag, datagrams, ticks and write outcomes: as long as
no write has failed, every block is in the state a lone decoder is in after that
block's packets, in the order they came, and what it answered is written at the
block's range. `pkts` counts the payloads of four bytes that opened, and every
one of them for a block in range is late or one call of a decoder. -/
theorem blocks_independent (dec : Decrypt) (l : Layout) (tag : UInt64) (plane : RxPlane)
    (es : List LoopEvent) {obs : List LoopObs} {s : Loop rq} {c : Collect rq}
    (hrun : run dec l tag (.running (.new rq plane l)) es = (obs, s)) (hc : s.locals = some c) :
    (c.ioErr = false → ∀ b, b < l.numBlocks →
      ∃ x, Lone.after rq l b (packetsOf b (obs.filterMap (got l))) = .ok x ∧ c.Keeps l b x) ∧
    c.pkts.toNat = obs.countP counted ∧
    c.latePkts.toNat + (decodeCalls dec l tag (.running (.new rq plane l)) es).length =
      (obs.filterMap (got l)).length := by
  have h := accounts_of_run hrun hc
  exact ⟨h.blocks, h.pkts, h.late⟩

/-- A packet of block `b`, a block of sevens, in plaintext. -/
def sevens (b : UInt32) (esi : UInt8) : LoopEvent :=
  .datagram (Datagram.encode 7 b ([0, 0, 0, esi] ++ List.replicate 64 7)) .ok

/-- Two blocks, whose packets come in turn: the second one answers, and its last
packet is late. -/
theorem blocks_independent_two : ∃ (l : Layout) (obs : List LoopObs) (c : Collect .repetition),
    Layout.new 128 64 64 = .ok l ∧
    run (fun _ _ _ _ => none) l 7 (.running (.new .repetition .plain l))
      [sevens 1 0, sevens 0 0, sevens 1 1, sevens 1 2] = (obs, .running c) ∧
    c.ioErr = false ∧ c.pkts = 4 ∧ c.latePkts = 1 ∧ (obs.filterMap (got l)).length = 4 ∧
    ∃ x, Lone.after .repetition l 1 (packetsOf 1 (obs.filterMap (got l))) = .ok x ∧
      c.Keeps l 1 x :=
  ⟨⟨128, 64, 64, 2, by decide, by decide, by decide, by decide⟩, _, _, rfl, rfl, rfl, rfl, rfl, rfl,
    (blocks_independent (fun _ _ _ _ => none) _ 7 .plain
      [sevens 1 0, sevens 0 0, sevens 1 1, sevens 1 2] rfl rfl).1 rfl 1 (by decide)⟩

end Loop

end AtpExperiment
