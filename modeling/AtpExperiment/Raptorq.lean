/-
The `raptorq` crate as this program uses it: packets and their wire form,
and the codec as a parameter.

Every operation of the codec may panic. What a result assumes of it is said
where it is used; `Raptorq.Sound` is the assumption of integrity: a decoder
that has seen only symbols of one block answers nothing or that block;
`Raptorq.Aligned` that of its symbol sizes.
-/
import AtpExperiment.Lib.Checked
import AtpExperiment.Lib.Chunks
import AtpExperiment.Lib.Octets

namespace AtpExperiment

open Octets

/-! ## Packets -/

/-- `EncodingPacket`: a payload id (source block number and 24-bit encoding
symbol id) and a symbol. -/
structure EncodingPacket where
  sbn : UInt8
  esi : Nat
  data : Octets
  esi_lt : esi < 2 ^ 24
  deriving DecidableEq

namespace EncodingPacket

/-- `PayloadId::serialize` of the packet's id. -/
def payloadId (p : EncodingPacket) : Octets := p.sbn :: beBytes 3 p.esi

theorem fromLe_reverse_lt {bs : Octets} (h : bs.length = 3) : fromLe bs.reverse < 2 ^ 24 := by
  have := fromLe_lt bs.reverse
  rw [List.length_reverse, h] at this
  omega

/-- `EncodingPacket::deserialize`, which indexes the four bytes of the id. -/
def deserialize (payload : Octets) : Checked EncodingPacket :=
  match payload with
  | sbn :: b₁ :: b₂ :: b₃ :: data =>
    .ok ⟨sbn, fromLe [b₁, b₂, b₃].reverse, data, fromLe_reverse_lt rfl⟩
  | _ => .error .outOfBounds

theorem deserialize_payload (p : EncodingPacket) : deserialize (p.payloadId ++ p.data) = .ok p := by
  obtain ⟨sbn, esi, data, hlt⟩ := p
  have hesi : fromLe (beBytes 3 esi).reverse = esi := by
    rw [beBytes, List.reverse_reverse, fromLe_leBytes]
    exact Nat.mod_eq_of_lt (by omega)
  obtain ⟨b₁, b₂, b₃, hb⟩ := List.length_eq_three.mp (length_beBytes 3 esi)
  rw [hb] at hesi
  simp only [payloadId, hb, List.cons_append, List.nil_append, deserialize, hesi]

theorem length_payload (p : EncodingPacket) :
    (p.payloadId ++ p.data).length = 4 + p.data.length := by
  simp only [payloadId, List.length_append, List.length_cons, length_beBytes]

theorem deserialize_of_length {payload : Octets} (h : 4 ≤ payload.length) :
    ∃ p, deserialize payload = .ok p ∧ payload = p.payloadId ++ p.data := by
  match payload, h with
  | sbn :: b₁ :: b₂ :: b₃ :: data, _ =>
    refine ⟨_, rfl, ?_⟩
    have := leBytes_fromLe [b₁, b₂, b₃].reverse
    simp only [payloadId, beBytes]
    rw [show (3 : Nat) = [b₁, b₂, b₃].reverse.length from rfl, this]
    rfl

end EncodingPacket

/-! ## Codec -/

/-- The crate's operations. -/
structure Raptorq where
  Oti : Type
  Encoder : Type
  BlockEncoder : Type
  Decoder : Type
  /-- `ObjectTransmissionInformation::with_defaults`. -/
  withDefaults : Nat → UInt16 → Checked Oti
  /-- `ObjectTransmissionInformation::symbol_size`. -/
  symbolSize : Oti → Nat
  /-- `Encoder::with_defaults`. -/
  encoderWithDefaults : Octets → UInt16 → Checked Encoder
  /-- `Encoder::get_block_encoders`. -/
  blockEncoders : Encoder → List BlockEncoder
  /-- `SourceBlockEncoder::source_packets`. -/
  sourcePackets : BlockEncoder → List EncodingPacket
  /-- `SourceBlockEncoder::repair_packets`, from an id, a number of packets. -/
  repairPackets : BlockEncoder → Nat → Nat → Checked (List EncodingPacket)
  /-- `Decoder::new`. -/
  newDecoder : Oti → Checked Decoder
  /-- `Decoder::decode`. -/
  decode : Decoder → EncodingPacket → Checked (Option Octets × Decoder)

namespace Raptorq

/-- A decoder after the packets `ps`, whatever it answered to them. -/
def feed (rq : Raptorq) : rq.Decoder → List EncodingPacket → Checked rq.Decoder
  | d, [] => .ok d
  | d, p :: ps => do
    let (_, d) ← rq.decode d p
    rq.feed d ps

theorem feed_append {rq : Raptorq} {d d' d'' : rq.Decoder} {ps : List EncodingPacket}
    {p : EncodingPacket} {out : Option Octets} (h : rq.feed d ps = .ok d')
    (hp : rq.decode d' p = .ok (out, d'')) : rq.feed d (ps ++ [p]) = .ok d'' := by
  induction ps generalizing d with
  | nil =>
    cases h
    simp [feed, hp]
  | cons q ps ih =>
    simp only [feed, Checked.bind_eq_ok, List.cons_append] at h ⊢
    obtain ⟨⟨o, e⟩, hq, h⟩ := h
    exact ⟨(o, e), hq, ih h⟩

/-- `p` is a source or repair symbol of `block`, encoded as one source block. -/
def Genuine (rq : Raptorq) (block : Octets) (symbolSize : UInt16) (p : EncodingPacket) : Prop :=
  ∃ e be, rq.encoderWithDefaults block symbolSize = .ok e ∧ rq.blockEncoders e = [be] ∧
    (p ∈ rq.sourcePackets be ∨ ∃ start n ps, rq.repairPackets be start n = .ok ps ∧ p ∈ ps)

/-- Fed only symbols of one block, a decoder answers nothing or that block. -/
def Sound (rq : Raptorq) : Prop :=
  ∀ {block : Octets} {symbolSize : UInt16} {oti : rq.Oti} {d₀ d d' : rq.Decoder}
    {ps : List EncodingPacket} {p : EncodingPacket} {out : Option Octets},
    rq.withDefaults block.length symbolSize = .ok oti → rq.newDecoder oti = .ok d₀ →
    rq.feed d₀ ps = .ok d → (∀ q ∈ ps ++ [p], rq.Genuine block symbolSize q) →
    rq.decode d p = .ok (out, d') → out = none ∨ out = some block

/-- A stand-in codec for runs on concrete inputs: every symbol is the whole
block, and a decoder answers from the second one on. It indexes one source
block by the packet's number and asserts full-size symbols, as the crate's
does. -/
def repetition : Raptorq where
  Oti := Nat
  Encoder := Octets
  BlockEncoder := Octets
  Decoder := Nat × Bool
  withDefaults len _ := .ok len
  symbolSize oti := oti
  encoderWithDefaults block _ := .ok block
  blockEncoders e := [e]
  sourcePackets be := [⟨0, 0, be, by decide⟩]
  repairPackets be start n := .ok <| (List.range n).map fun i =>
    ⟨0, (1 + start + i) % 2 ^ 24, be, Nat.mod_lt _ (by decide)⟩
  newDecoder oti := .ok (oti, false)
  decode d p :=
    if p.sbn ≠ 0 then .error .outOfBounds
    else if p.data.length ≠ d.1 then .error .assertion
    else .ok (if d.2 then some p.data else none, d.1, true)

theorem sound_repetition : repetition.Sound := by
  intro block symbolSize oti d₀ d d' ps p out _ _ _ hgen hdec
  obtain ⟨e, be, he, hbe, hp⟩ := hgen p (by simp)
  cases he
  cases hbe
  have hdata : p.data = block := by
    rcases hp with hp | ⟨start, n, ps, hps, hp⟩
    · rw [List.mem_singleton.mp hp]
    · cases hps
      obtain ⟨i, -, rfl⟩ := List.mem_map.mp hp
      rfl
  simp only [repetition] at hdec
  split at hdec
  · cases hdec
  split at hdec
  · cases hdec
  · cases hdec
    rw [hdata]
    split
    · exact .inr rfl
    · exact .inl rfl

/-- The symbol size of `with_defaults`: the argument without its remainder by
eight. -/
def aligned (symbolSize : UInt16) : Nat := symbolSize.toNat - symbolSize.toNat % 8

/-- `with_defaults(len, T)` produces symbols of `T - T % 8` bytes. -/
def Aligned (rq : Raptorq) : Prop :=
  ∀ {block : Octets} {symbolSize : UInt16} {p : EncodingPacket},
    rq.Genuine block symbolSize p → p.data.length = aligned symbolSize

/-- `K'_max`: the most symbols of a source block. -/
def kMax : Nat := 56403

/-- A stand-in codec with the crate's sizes: symbols of `aligned` bytes, the
last one padded, `kMax` of them to a source block, and sizes below eight
refused. Repair symbols are zeros, and nothing is decoded. -/
def sliced : Raptorq where
  Oti := Nat
  Encoder := Octets × Nat
  BlockEncoder := Octets × Nat
  Decoder := Unit
  withDefaults _ t := if t.toNat < 8 then .error .assertion else .ok (aligned t)
  symbolSize oti := oti
  encoderWithDefaults block t :=
    if t.toNat < 8 then .error .assertion else .ok (block, aligned t)
  blockEncoders e := (Chunks.chunks (kMax * e.2) e.1).map fun block => (block, e.2)
  sourcePackets be := (Chunks.chunks be.2 be.1).zipIdx.map fun c =>
    ⟨0, c.2 % 2 ^ 24, c.1 ++ List.replicate (be.2 - c.1.length) 0, Nat.mod_lt _ (by decide)⟩
  repairPackets be start n := .ok <| (List.range n).map fun i =>
    ⟨0, (kMax + start + i) % 2 ^ 24, List.replicate be.2 0, Nat.mod_lt _ (by decide)⟩
  newDecoder _ := .ok ()
  decode _ _ := .ok (none, ())

theorem aligned_sliced : sliced.Aligned := by
  intro block symbolSize p h
  obtain ⟨e, be, he, hbe, hp⟩ := h
  simp only [sliced] at he
  split at he
  · cases he
  next hsize =>
  cases he
  have hpos : 0 < aligned symbolSize := by
    unfold aligned
    omega
  have hmem : be ∈ sliced.blockEncoders (block, aligned symbolSize) := by
    rw [hbe]
    exact List.mem_singleton_self _
  obtain ⟨piece, -, rfl⟩ := List.mem_map.mp hmem
  rcases hp with hp | ⟨start, n, ps, hps, hp⟩
  · obtain ⟨c, hc, rfl⟩ := List.mem_map.mp hp
    have := Chunks.length_le_of_mem_chunks hpos (List.fst_mem_of_mem_zipIdx hc)
    simp only [List.length_append, List.length_replicate]
    omega
  · cases hps
    obtain ⟨i, -, rfl⟩ := List.mem_map.mp hp
    exact List.length_replicate

/-! ## Source blocks -/

/-- The bytes of the source symbols of a block encoder. -/
def sourceBytes (rq : Raptorq) (be : rq.BlockEncoder) : Octets :=
  (rq.sourcePackets be).flatMap (·.data)

/-- How `Encoder::with_defaults(block, T)` divides a block: its source blocks
together hold the block, and one of them is enough exactly when `kMax` symbols
of `T - T % 8` bytes are. -/
structure Partition (rq : Raptorq) : Prop where
  covers {block : Octets} {symbolSize : UInt16} {e : rq.Encoder} :
    rq.encoderWithDefaults block symbolSize = .ok e →
      block <+: (rq.blockEncoders e).flatMap rq.sourceBytes
  several {block : Octets} {symbolSize : UInt16} {e : rq.Encoder} :
    kMax * aligned symbolSize < block.length →
      rq.encoderWithDefaults block symbolSize = .ok e → 1 < (rq.blockEncoders e).length
  single {block : Octets} {symbolSize : UInt16} :
    block ≠ [] → block.length ≤ kMax * aligned symbolSize →
      ∃ e, rq.encoderWithDefaults block symbolSize = .ok e ∧ (rq.blockEncoders e).length = 1

theorem sliced_sourceBytes_eq (t : Nat) (c : Octets) : sliced.sourceBytes (c, t) =
    (Chunks.chunks t c).flatMap fun p => p ++ List.replicate (t - p.length) 0 := by
  simp only [sourceBytes, sliced, List.flatMap_map]
  conv_rhs => rw [← List.zipIdx_map_fst 0 (Chunks.chunks t c), List.flatMap_map]

/-- The symbols of a source block are its bytes, padded unless they fill whole
symbols. -/
theorem sliced_sourceBytes {t : Nat} (ht : 0 < t) (c : Octets) :
    ∃ pad, sliced.sourceBytes (c, t) = c ++ pad ∧ (t ∣ c.length → pad = []) := by
  rw [sliced_sourceBytes_eq]
  induction c using Chunks.chunks_induction ht with
  | nil => exact ⟨[], by simp, fun _ => rfl⟩
  | step l hl ih =>
    rw [Chunks.chunks_of_ne_nil ht hl, List.flatMap_cons]
    by_cases hle : l.length ≤ t
    · rw [List.take_of_length_le hle, List.drop_of_length_le hle]
      refine ⟨List.replicate (t - l.length) 0, by simp, fun hdvd => ?_⟩
      rw [Nat.sub_eq_zero_of_le (Nat.le_of_dvd (List.length_pos_iff.mpr hl) hdvd)]
      rfl
    · obtain ⟨pad, heq, hnil⟩ := ih
      refine ⟨pad, ?_, fun hdvd => hnil ?_⟩
      · rw [heq, List.length_take_of_le (by omega), Nat.sub_self, List.replicate_zero,
          List.append_nil, ← List.append_assoc, List.take_append_drop]
      · rw [List.length_drop]
        exact Nat.dvd_sub hdvd (Nat.dvd_refl t)

theorem partition_sliced : sliced.Partition where
  covers {block symbolSize e} h := by
    simp only [sliced] at h
    split at h
    · cases h
    next hsize =>
    cases h
    have ht : 0 < aligned symbolSize := by
      unfold aligned
      omega
    have hk : 0 < kMax * aligned symbolSize := Nat.mul_pos (by decide) ht
    have hmap : (sliced.blockEncoders (block, aligned symbolSize)).flatMap sliced.sourceBytes =
        (Chunks.chunks (kMax * aligned symbolSize) block).flatMap
          fun c => sliced.sourceBytes (c, aligned symbolSize) := List.flatMap_map _ _ _
    rw [hmap]
    clear hmap
    -- Only the last source block can end in a padded symbol.
    induction block using Chunks.chunks_induction hk with
    | nil => exact List.nil_prefix
    | step l hl ih =>
      rw [Chunks.chunks_of_ne_nil hk hl, List.flatMap_cons]
      obtain ⟨pad, heq, hnil⟩ := sliced_sourceBytes ht (l.take (kMax * aligned symbolSize))
      rw [heq]
      by_cases hle : l.length ≤ kMax * aligned symbolSize
      · rw [List.take_of_length_le hle, List.append_assoc]
        exact List.prefix_append _ _
      · rw [hnil (by rw [List.length_take_of_le (by omega)]; exact Nat.dvd_mul_left _ _),
          List.append_nil]
        have := (List.prefix_append_right_inj (l.take (kMax * aligned symbolSize))).mpr ih
        rwa [List.take_append_drop] at this
  several {block symbolSize e} hlen h := by
    simp only [sliced] at h
    split at h
    · cases h
    next hsize =>
    cases h
    have hk : 0 < kMax * aligned symbolSize := by
      refine Nat.mul_pos (by decide) ?_
      unfold aligned
      omega
    have hne : block ≠ [] := List.ne_nil_of_length_pos (by omega)
    have hrest : block.drop (kMax * aligned symbolSize) ≠ [] :=
      List.ne_nil_of_length_pos (by rw [List.length_drop]; omega)
    simp only [sliced, List.length_map]
    rw [Chunks.chunks_of_ne_nil hk hne, Chunks.chunks_of_ne_nil hk hrest]
    simp only [List.length_cons]
    omega
  single {block symbolSize} hne hle := by
    have ht : ¬ symbolSize.toNat < 8 := by
      intro hlt
      have hz : aligned symbolSize = 0 := by
        unfold aligned
        omega
      rw [hz, Nat.mul_zero] at hle
      exact hne (List.eq_nil_of_length_eq_zero (Nat.le_zero.mp hle))
    refine ⟨(block, aligned symbolSize), if_neg ht, ?_⟩
    simp only [sliced, List.length_map]
    rw [Chunks.chunks_of_length_le hne hle]
    rfl

end Raptorq

end AtpExperiment
