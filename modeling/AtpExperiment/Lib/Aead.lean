/-
Authenticated encryption with associated data, in place and with a detached
tag, and its ideal version.

`Encrypt` and `Decrypt` are the two primitives under one key. The ideal
primitive keeps a table of the seal calls made under the key and opens a
body exactly when its nonce, associated data, ciphertext and tag are those of
one of them (`decryptTable`): nothing else authenticates.
-/
import AtpExperiment.Lib.Octets

namespace Aead

/-- `nonce`, associated data, body ↦ ciphertext and tag; `none` is a failure. -/
abbrev Encrypt := Octets → Octets → Octets → Option (Octets × Octets)

/-- `nonce`, associated data, ciphertext, tag ↦ body; `none` does not authenticate. -/
abbrev Decrypt := Octets → Octets → Octets → Octets → Option Octets

/-- One successful seal call: its inputs and its outputs. -/
structure Sealed where
  nonce : Octets
  aad : Octets
  plain : Octets
  cipher : Octets
  tag : Octets
  deriving DecidableEq, Repr

/-- The seal call under `nonce` and `aad` of `body`. -/
def encryptCall (enc : Encrypt) (nonce aad body : Octets) : Option Sealed :=
  (enc nonce aad body).map fun ct => ⟨nonce, aad, body, ct.1, ct.2⟩

theorem encryptCall_eq_some {enc : Encrypt} {nonce aad body : Octets} {e : Sealed}
    (h : encryptCall enc nonce aad body = some e) :
    e.nonce = nonce ∧ e.aad = aad ∧ e.plain = body := by
  simp only [encryptCall, Option.map_eq_some_iff] at h
  obtain ⟨ct, -, rfl⟩ := h
  exact ⟨rfl, rfl, rfl⟩

/-- A ciphertext is as long as its body, and a tag has `tagLen` octets. -/
def InPlace (enc : Encrypt) (tagLen : Nat) : Prop :=
  ∀ nonce aad body cipher tag, enc nonce aad body = some (cipher, tag) →
    cipher.length = body.length ∧ tag.length = tagLen

/-- The two primitives belong together: what was encrypted decrypts to itself. -/
def Inverse (enc : Encrypt) (dec : Decrypt) : Prop :=
  ∀ nonce aad body cipher tag, enc nonce aad body = some (cipher, tag) →
    dec nonce aad cipher tag = some body

/-- The ideal `Decrypt` after the seal calls in `table`. -/
def decryptTable (table : List Sealed) : Decrypt := fun nonce aad cipher tag =>
  (table.find? fun e => e.nonce == nonce && e.aad == aad && e.cipher == cipher && e.tag == tag).map
    (·.plain)

/-- Only what was sealed opens. -/
theorem decryptTable_eq_some {table : List Sealed} {nonce aad cipher tag plain : Octets}
    (h : decryptTable table nonce aad cipher tag = some plain) :
    (⟨nonce, aad, plain, cipher, tag⟩ : Sealed) ∈ table := by
  simp only [decryptTable, Option.map_eq_some_iff] at h
  obtain ⟨e, he, rfl⟩ := h
  have hp := List.find?_some he
  simp only [Bool.and_eq_true, beq_iff_eq] at hp
  obtain ⟨⟨⟨rfl, rfl⟩, rfl⟩, rfl⟩ := hp
  exact List.mem_of_find?_eq_some he

end Aead
