/-
UDP symbol-plane datagrams (`datagram.rs`): the plaintext layout

    magic "ATP2" (4) ‖ transfer_tag (8, LE) ‖ block_index (4, LE) ‖ payload

and the two planes that pick between it and the sealed layout at run time.

`RxPlane.open_none`: a datagram that does not open leaves the plane as it
was, on either plane and for any AEAD.
-/
import AtpExperiment.SealedFacts

namespace AtpExperiment

open Octets Aead

/-- A parsed datagram. -/
structure Datagram where
  blockIndex : UInt32
  payload : Octets
  deriving DecidableEq, Repr

namespace Datagram

/-- `MAGIC`, `b"ATP2"`. -/
def magic : Octets := [0x41, 0x54, 0x50, 0x32]

/-- `HEADER_LEN`. -/
def headerLen : Nat := 4 + 8 + 4

/-- `FLOW_OPEN_BLOCK`, `u32::MAX`. -/
def flowOpenBlock : UInt32 := 0xFFFFFFFF

/-- `encode_into`: a plaintext datagram appended to `out`. -/
def encodeInto (transferTag : UInt64) (blockIndex : UInt32) (payload out : Octets) : Octets :=
  out ++ magic ++ leBytes 8 transferTag.toNat ++ leBytes 4 blockIndex.toNat ++ payload

/-- `encode`: into a fresh buffer. -/
def encode (transferTag : UInt64) (blockIndex : UInt32) (payload : Octets) : Octets :=
  encodeInto transferTag blockIndex payload []

/-- `decode`: `none` on bad magic, another tag, or truncation. -/
def decode (transferTag : UInt64) (buf : Octets) : Option Datagram :=
  if buf.length < headerLen ∨ buf.take 4 ≠ magic then none
  else if UInt64.ofNat (fromLe (slice buf 4 12)) ≠ transferTag then none
  else some ⟨UInt32.ofNat (fromLe (slice buf 12 16)), buf.drop headerLen⟩

/-- `flow_open`. -/
def flowOpen (transferTag : UInt64) : Octets := encode transferTag flowOpenBlock []

/-- `is_flow_open`. -/
def isFlowOpen (transferTag : UInt64) (buf : Octets) : Bool :=
  (decode transferTag buf).any fun d => d.blockIndex == flowOpenBlock && d.payload.isEmpty

end Datagram

/-! ## Sender side -/

/-- `TxPlane`. -/
inductive TxPlane
  | plain
  | sealed (sealer : SymbolSealer)
  deriving DecidableEq, Repr

/-- What `TxPlane::encode_into` leaves: the plane, the batch buffer, whether
it returned `Ok`, and the record of the AEAD call, if one was made and
succeeded. -/
structure EncodeOut where
  plane : TxPlane
  out : Octets
  ok : Bool
  sealed : Option Sealed

namespace TxPlane

/-- `TxPlane::encode_into`. -/
def encodeInto (enc : Encrypt) (plane : TxPlane) (transferTag : UInt64) (blockIndex : UInt32)
    (payload out : Octets) : EncodeOut :=
  match plane with
  | .plain => ⟨.plain, Datagram.encodeInto transferTag blockIndex payload out, true, none⟩
  | .sealed sealer =>
    let r := sealDatagramInto enc sealer transferTag blockIndex payload out
    ⟨.sealed r.sealer, r.out, r.sealed.isSome, r.sealed⟩

/-- `TxPlane::wire_len`. -/
def wireLen (plane : TxPlane) (payloadLen : Nat) : Nat :=
  match plane with
  | .plain => Datagram.headerLen + payloadLen
  | .sealed _ => Sealed.overhead + 4 + payloadLen

/-- `TxPlane::burn_seq`. -/
def burnSeq : TxPlane → TxPlane
  | .plain => .plain
  | .sealed sealer => .sealed sealer.nextSeq.2

theorem encodeInto_sealed (enc : Encrypt) (q t : UInt64) (b : UInt32) (payload out : Octets) :
    let r := (TxPlane.sealed ⟨q⟩).encodeInto enc t b payload out
    r.plane = .sealed ⟨q + 1⟩ ∧ r.ok = r.sealed.isSome ∧
      ∀ e, r.sealed = some e → SealedAs e t q b payload := by
  simp only [encodeInto, sealDatagramInto_eq]
  split
  · exact ⟨rfl, trivial, nofun⟩
  · next e he =>
    refine ⟨rfl, trivial, fun e' h => ?_⟩
    cases h
    obtain ⟨hn, ha, hp⟩ := encryptCall_eq_some he
    exact ⟨hn, ha, hp⟩

theorem wireLen_pos (plane : TxPlane) (n : Nat) : 0 < plane.wireLen n := by
  cases plane <;> simp [wireLen, Datagram.headerLen]

theorem encodeInto_sealed_ok {enc : Encrypt} {q t : UInt64} {b : UInt32} {payload out : Octets}
    (hok : ((TxPlane.sealed ⟨q⟩).encodeInto enc t b payload out).ok = true) :
    ∃ cipher tag, enc (Sealed.seqNonce q) (header t q) (sealBody b payload) = some (cipher, tag) ∧
      ((TxPlane.sealed ⟨q⟩).encodeInto enc t b payload out).plane = .sealed ⟨q + 1⟩ ∧
      ((TxPlane.sealed ⟨q⟩).encodeInto enc t b payload out).out =
        out ++ (header t q ++ cipher ++ tag) := by
  simp only [encodeInto, sealDatagramInto_eq] at hok ⊢
  split at hok
  · cases hok
  next e he =>
  simp only [encryptCall, Option.map_eq_some_iff] at he
  obtain ⟨⟨cipher, tag⟩, henc, rfl⟩ := he
  exact ⟨cipher, tag, henc, rfl, by simp⟩

end TxPlane

/-! ## Receiver side -/

/-- `RxPlane`; a `SymbolOpener` is its replay window, the key being that of
the `Decrypt` in force. -/
inductive RxPlane
  | plain
  | sealed (opener : ReplayWindow)
  deriving DecidableEq

/-- `RxPlane::open`. -/
def RxPlane.open (dec : Decrypt) (plane : RxPlane) (transferTag : UInt64) (buf : Octets) :
    Checked (Option (UInt32 × Octets) × RxPlane) :=
  match plane with
  | .plain =>
    return ((Datagram.decode transferTag buf).map fun dg => (dg.blockIndex, dg.payload), .plain)
  | .sealed opener => do
    let (r, opener) ← openDatagram dec opener transferTag buf
    return (r, .sealed opener)

namespace RxPlane

/-- `RxPlane::seq_span`. -/
def seqSpan : RxPlane → Checked (Option UInt64)
  | .plain => return none
  | .sealed opener => opener.seqSpan

theorem open_sealed {dec : Decrypt} {w : ReplayWindow} {t : UInt64} {buf : Octets}
    {r : Option (UInt32 × Octets)} {plane : RxPlane}
    (h : (sealed w).open dec t buf = .ok (r, plane)) :
    ∃ w', openDatagram dec w t buf = .ok (r, w') ∧ plane = .sealed w' := by
  simp only [RxPlane.open, Checked.bind_eq_ok, Checked.pure_eq_ok, Prod.mk.injEq] at h
  obtain ⟨⟨r', w'⟩, hr, rfl, rfl⟩ := h
  exact ⟨w', hr, rfl⟩

/-- A datagram that does not open changes nothing. -/
theorem open_none {dec : Decrypt} {plane plane' : RxPlane} {t : UInt64} {buf : Octets}
    (h : plane.open dec t buf = .ok (none, plane')) : plane' = plane := by
  cases plane with
  | plain =>
    simp only [RxPlane.open, Checked.pure_eq_ok, Prod.mk.injEq] at h
    exact h.2.symm
  | sealed w =>
    obtain ⟨w', hw, rfl⟩ := open_sealed h
    rw [openDatagram_none hw]

end RxPlane

end AtpExperiment
