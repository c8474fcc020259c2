/-
The sealed symbol plane (`sealed.rs`): per-datagram AEAD with an explicit
sequence number.

    magic "ATRS" (4) ‖ transfer_tag (8, LE) ‖ seq (8, LE)   associated data
    block_index (4, LE) ‖ EncodingPacket                     ciphertext
    Poly1305 tag (16)

The cipher under the session key is a parameter (`Aead.Encrypt`,
`Aead.Decrypt`); a seal call hands back its record, which is the entry the
ideal AEAD keeps.
-/
import AtpExperiment.Lib.Aead
import AtpExperiment.Replay

namespace AtpExperiment

open Octets Aead

namespace Sealed

/-- `TAG_LEN`. -/
def tagLen : Nat := 16

/-- `MAGIC`, `b"ATRS"`. -/
def magic : Octets := [0x41, 0x54, 0x52, 0x53]

/-- `HEADER_LEN`. -/
def headerLen : Nat := 4 + 8 + 8

/-- `OVERHEAD`. -/
def overhead : Nat := headerLen + tagLen

/-- `seq_nonce`: four zero bytes and the number, big-endian. -/
def seqNonce (seq : UInt64) : Octets := [0, 0, 0, 0] ++ beBytes 8 seq.toNat

end Sealed

open Sealed

/-! ## Sealing -/

/-- `SymbolSealer`: the shared sequence counter. -/
structure SymbolSealer where
  seq : UInt64
  deriving DecidableEq, Repr

namespace SymbolSealer

/-- `SymbolSealer::new`. -/
def new : SymbolSealer := ⟨0⟩

/-- `SymbolSealer::next_seq`: `fetch_add(1)`, which wraps. -/
def nextSeq (s : SymbolSealer) : UInt64 × SymbolSealer := (s.seq, ⟨s.seq + 1⟩)

/-- `SymbolSealer::seal_in_place`; `none` is `AEAD seal failed`. -/
def sealInPlace (enc : Encrypt) (seq : UInt64) (aad body : Octets) : Option Sealed :=
  encryptCall enc (seqNonce seq) aad body

end SymbolSealer

/-- What a seal call leaves: the sealer, the buffer, and the record of the
AEAD call (`none` when it failed). -/
structure SealOut where
  sealer : SymbolSealer
  out : Octets
  sealed : Option Sealed

/-- `seal_datagram_into`: a datagram appended to `out`. When the AEAD call
fails the header and the body stay in `out`. -/
def sealDatagramInto (enc : Encrypt) (sealer : SymbolSealer) (transferTag : UInt64)
    (blockIndex : UInt32) (payload out : Octets) : SealOut :=
  let (seq, sealer) := sealer.nextSeq
  let start := out.length
  let out := out ++ magic ++ leBytes 8 transferTag.toNat ++ leBytes 8 seq.toNat ++
    leBytes 4 blockIndex.toNat ++ payload
  let aad := (out.drop start).take headerLen
  let body := (out.drop start).drop headerLen
  match SymbolSealer.sealInPlace enc seq aad body with
  | none => ⟨sealer, out, none⟩
  | some e => ⟨sealer, out.take start ++ aad ++ e.cipher ++ e.tag, some e⟩

/-- `seal_datagram`: into a fresh buffer. -/
def sealDatagram (enc : Encrypt) (sealer : SymbolSealer) (transferTag : UInt64)
    (blockIndex : UInt32) (payload : Octets) : SealOut :=
  sealDatagramInto enc sealer transferTag blockIndex payload []

/-! ## Opening -/

/-- `SymbolOpenError`. -/
inductive SymbolOpenError
  /-- A replay, or behind the anti-replay window. -/
  | replay
  /-- Forged, corrupted, or under another key. -/
  | badTag
  deriving DecidableEq, Repr

/-- `SymbolOpener::open_in_place`: the window is consulted before the AEAD
and advanced only after it. -/
def openInPlace (dec : Decrypt) (window : ReplayWindow) (seq : UInt64) (aad body tag : Octets) :
    Checked (Except SymbolOpenError Octets × ReplayWindow) :=
  if tag.length ≠ tagLen then return (.error .badTag, window)
  else if !window.wouldAccept seq then return (.error .replay, window)
  else match dec (seqNonce seq) aad body tag with
    | none => return (.error .badTag, window)
    | some plain => do
      let window ← window.commit seq
      return (.ok plain, window)

/-- The transfer tag in a datagram's clear header. -/
def wireTag (buf : Octets) : UInt64 := UInt64.ofNat (fromLe (slice buf 4 12))

/-- The sequence number in a datagram's clear header. -/
def wireSeq (buf : Octets) : UInt64 := UInt64.ofNat (fromLe (slice buf 12 20))

/-- `open_datagram`. -/
def openDatagram (dec : Decrypt) (window : ReplayWindow) (transferTag : UInt64) (buf : Octets) :
    Checked (Option (UInt32 × Octets) × ReplayWindow) :=
  if buf.length < overhead + 4 ∨ buf.take 4 ≠ magic then return (none, window)
  else if wireTag buf ≠ transferTag then return (none, window)
  else do
    let tagStart := buf.length - tagLen
    let tag := buf.drop tagStart
    let aad := (buf.take tagStart).take headerLen
    let body := (buf.take tagStart).drop headerLen
    let (r, window) ← openInPlace dec window (wireSeq buf) aad body tag
    match r with
    | .error _ => return (none, window)
    | .ok body =>
      return (some (UInt32.ofNat (fromLe (body.take 4)), body.drop 4), window)

end AtpExperiment
