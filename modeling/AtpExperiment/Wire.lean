/-
The control plane: frames (`wire.rs`), errors (`error.rs`), and the hash both
ends compare (`sha2`, `hex`).

Frames are the unit of the control stream. A streamed hash is the one-shot
hash of the whole (`Sha256.stream`, documented of `sha2`), and hex strings
are equal only for equal digests (`hexEncode_inj`).
-/
import AtpExperiment.Blocks
import Mathlib.Data.String.Basic

namespace AtpExperiment

open Octets

/-- `VERSION`. -/
def version : UInt32 := 3

/-- `Frame`. -/
inductive Frame
  | hello (version : UInt32) (transferTag : UInt64) (dataPort : Option UInt16)
  | helloAck (udpPort : Option UInt16)
  | manifest (fileName : String) (fileSize : UInt64) (sha256 : String) (blockSize : UInt32)
      (symbolSize : UInt16) (numBlocks : UInt32)
  | manifestAck
  | blockDecoded (index : UInt32)
  | progress (pkts : UInt64) (span : Option UInt64) (tMs : UInt64)
  | done (ok : Bool) (error : Option String)
  deriving DecidableEq, Repr

/-- `Error`. A frame of the wrong kind is
`Error::protocol(format!("expected …, got {f:?}"))`. -/
inductive Error
  | io
  | json
  | protocol (msg : String)
  | expected (kind : String) (got : Frame)
  /-- `control connection lost: …`, with the unexpected frame if there was one. -/
  | lost (got : Option Frame)
  | transfer (msg : String)
  deriving DecidableEq, Repr

/-! ## Hash -/

/-- `sha2::Sha256`: hashing in parts is hashing the whole. -/
structure Sha256 where
  Hasher : Type
  new : Hasher
  update : Hasher → Octets → Hasher
  finalize : Hasher → Octets
  stream : ∀ chunks : List Octets,
    finalize (chunks.foldl update new) = finalize (update new chunks.flatten)

namespace Sha256

/-- `Sha256::digest`. -/
def digest (sha : Sha256) (data : Octets) : Octets := sha.finalize (sha.update sha.new data)

/-- A stand-in hash for runs on concrete inputs: the bytes themselves. -/
def identity : Sha256 where
  Hasher := Octets
  new := []
  update := (· ++ ·)
  finalize h := h
  stream chunks := by
    have h : ∀ (acc : Octets) (cs : List Octets), cs.foldl (· ++ ·) acc = acc ++ cs.flatten := by
      intro acc cs
      induction cs generalizing acc with
      | nil => simp
      | cons c cs ih => simp [ih]
    exact h [] chunks

end Sha256

/-- A hexadecimal digit, lower case. -/
def hexDigit (n : Nat) : Char := if n < 10 then Char.ofNat (48 + n) else Char.ofNat (87 + n)

/-- The digits of `hex::encode`. -/
def hexDigits : Octets → List Char
  | [] => []
  | b :: bs => hexDigit (b.toNat / 16) :: hexDigit (b.toNat % 16) :: hexDigits bs

/-- `hex::encode`. -/
def hexEncode (bs : Octets) : String := String.ofList (hexDigits bs)

theorem hexDigit_inj : ∀ m < 16, ∀ n < 16, hexDigit m = hexDigit n → m = n := by decide

theorem hexDigits_inj {as bs : Octets} (h : hexDigits as = hexDigits bs) : as = bs := by
  induction as generalizing bs with
  | nil =>
    cases bs with
    | nil => rfl
    | cons b bs => cases h
  | cons a as ih =>
    cases bs with
    | nil => cases h
    | cons b bs =>
      simp only [hexDigits, List.cons.injEq] at h
      obtain ⟨hhi, hlo, hrest⟩ := h
      have ha := a.toNat_lt
      have hb := b.toNat_lt
      have h1 := hexDigit_inj _ (by omega) _ (by omega) hhi
      have h2 := hexDigit_inj _ (by omega) _ (by omega) hlo
      rw [ih hrest, UInt8.toNat.inj (show a.toNat = b.toNat by omega)]

theorem hexEncode_inj {as bs : Octets} (h : hexEncode as = hexEncode bs) : as = bs :=
  hexDigits_inj (String.ofList_injective h)

end AtpExperiment
