/-
What sealing and opening one datagram do.

`sealDatagramInto_eq` gives the wire form of a seal call.
`openDatagram_some` and `openDatagram_none` say everything an open can do:
it returns a body only for a buffer that is header ‖ ciphertext ‖ tag with
the opener's tag and an accepted sequence number, and then it commits that
number; otherwise the window is unchanged. Under the ideal AEAD such a
buffer is the record of a seal call (`Opened.sealedAs`).
-/
import AtpExperiment.ReplayFacts
import AtpExperiment.Sealed

namespace AtpExperiment

open Octets Aead Sealed

/-! ## Header -/

/-- The clear header. -/
def header (transferTag seq : UInt64) : Octets :=
  magic ++ leBytes 8 transferTag.toNat ++ leBytes 8 seq.toNat

@[simp] theorem length_header (t q : UInt64) : (header t q).length = headerLen := by
  simp [header, magic, headerLen]

theorem ofNat_fromLe_leBytes (x : UInt64) : UInt64.ofNat (fromLe (leBytes 8 x.toNat)) = x := by
  have hx := x.toNat_lt
  rw [fromLe_leBytes, Nat.mod_eq_of_lt (by omega), UInt64.ofNat_toNat]

theorem leBytes_ofNat_fromLe {bs : Octets} (h : bs.length = 8) :
    leBytes 8 (UInt64.ofNat (fromLe bs)).toNat = bs := by
  have hlt := fromLe_lt bs
  rw [h] at hlt
  have hn : (UInt64.ofNat (fromLe bs)).toNat = fromLe bs := by
    rw [UInt64.toNat_ofNat']; exact Nat.mod_eq_of_lt (by omega)
  rw [hn]
  have := leBytes_fromLe bs
  rwa [h] at this

theorem wireSeq_header (t q : UInt64) (rest : Octets) : wireSeq (header t q ++ rest) = q := by
  have hs : slice (header t q ++ rest) 12 20 = leBytes 8 q.toNat := by
    have h12 : (magic ++ leBytes 8 t.toNat).length = 12 := by simp [magic]
    rw [slice, header, List.append_assoc, List.drop_append_of_le_length (by omega), ← h12,
      List.drop_length, List.nil_append, List.take_append_of_le_length (by simp [magic])]
    exact List.take_of_length_le (by simp [magic])
  rw [wireSeq, hs, ofNat_fromLe_leBytes]

theorem seqNonce_inj {p q : UInt64} (h : seqNonce p = seqNonce q) : p = q := by
  have hp := p.toNat_lt
  have hq := q.toNat_lt
  exact UInt64.toNat.inj (beBytes_inj (by omega) (by omega) (List.append_cancel_left h))

theorem header_tag_inj {t t' q q' : UInt64} (h : header t q = header t' q') : t = t' := by
  have h8 : (leBytes 8 t.toNat).length = (leBytes 8 t'.toNat).length := by simp
  simp only [header, List.append_assoc] at h
  have := (List.append_inj (List.append_cancel_left h) h8).1
  have ht := t.toNat_lt
  have ht' := t'.toNat_lt
  exact UInt64.toNat.inj (leBytes_inj (by omega) (by omega) this)

/-- A buffer that starts with the magic and the opener's tag starts with the
header its sequence number gives. -/
theorem take_header {buf : Octets} (hlen : headerLen ≤ buf.length) (hmagic : buf.take 4 = magic) :
    buf.take headerLen = header (wireTag buf) (wireSeq buf) := by
  have hlen' : 20 ≤ buf.length := hlen
  have h8 : (slice buf 4 12).length = 8 := by rw [length_slice]; omega
  have h8' : (slice buf 12 20).length = 8 := by rw [length_slice]; omega
  have h20 : buf.take 20 = buf.take 4 ++ slice buf 4 12 ++ slice buf 12 20 := by
    simp only [slice]
    rw [show (20 : Nat) = 4 + 8 + 8 from rfl, List.take_add, List.take_add]
  rw [header, wireTag, wireSeq, leBytes_ofNat_fromLe h8, leBytes_ofNat_fromLe h8', ← hmagic]
  exact h20

/-! ## Sealing -/

/-- The body a seal call encrypts. -/
def sealBody (blockIndex : UInt32) (payload : Octets) : Octets :=
  leBytes 4 blockIndex.toNat ++ payload

theorem sealBody_split (b : UInt32) (payload : Octets) :
    UInt32.ofNat (fromLe ((sealBody b payload).take 4)) = b ∧
      (sealBody b payload).drop 4 = payload := by
  have hb := b.toNat_lt
  have h4 : (leBytes 4 b.toNat).length = 4 := length_leBytes 4 _
  constructor
  · rw [sealBody, List.take_append_of_le_length (by omega), List.take_of_length_le (by omega),
      fromLe_leBytes, Nat.mod_eq_of_lt (by omega), UInt32.ofNat_toNat]
  · rw [sealBody, List.drop_append_of_le_length (by omega), List.drop_of_length_le (by omega),
      List.nil_append]

/-- A seal call: one number consumed; the header and the sealed body, or on
failure the header and the plain body, appended. -/
theorem sealDatagramInto_eq (enc : Encrypt) (s : SymbolSealer) (t : UInt64) (b : UInt32)
    (payload out : Octets) :
    sealDatagramInto enc s t b payload out =
      match encryptCall enc (seqNonce s.seq) (header t s.seq) (sealBody b payload) with
      | none => ⟨⟨s.seq + 1⟩, out ++ header t s.seq ++ sealBody b payload, none⟩
      | some e => ⟨⟨s.seq + 1⟩, out ++ header t s.seq ++ e.cipher ++ e.tag, some e⟩ := by
  have hbuf : out ++ magic ++ leBytes 8 t.toNat ++ leBytes 8 s.seq.toNat ++ leBytes 4 b.toNat ++
      payload = out ++ (header t s.seq ++ sealBody b payload) := by
    simp [header, sealBody]
  have hlen := length_header t s.seq
  have haad : (header t s.seq ++ sealBody b payload).take headerLen = header t s.seq := by
    rw [List.take_append_of_le_length (by omega), List.take_of_length_le (by omega)]
  have hbody : (header t s.seq ++ sealBody b payload).drop headerLen = sealBody b payload := by
    rw [List.drop_append_of_le_length (by omega), List.drop_of_length_le (by omega),
      List.nil_append]
  simp only [sealDatagramInto, SymbolSealer.nextSeq, SymbolSealer.sealInPlace, hbuf,
    List.drop_left, List.take_left, haad, hbody]
  cases encryptCall enc (seqNonce s.seq) (header t s.seq) (sealBody b payload) with
  | none => simp
  | some e => simp

/-! ## Opening -/

theorem openInPlace_error {dec : Decrypt} {w w' : ReplayWindow} {seq : UInt64}
    {aad body tag : Octets} {e : SymbolOpenError}
    (h : openInPlace dec w seq aad body tag = .ok (.error e, w')) : w' = w := by
  unfold openInPlace at h
  split at h
  · cases h; rfl
  split at h
  · cases h; rfl
  split at h
  · cases h; rfl
  · simp only [Checked.bind_eq_ok, Checked.pure_eq_ok, Prod.mk.injEq] at h
    obtain ⟨_, _, h, _⟩ := h
    cases h

/-- An accepted one was acceptable to the window, authenticated, and is now
committed. -/
theorem openInPlace_ok {dec : Decrypt} {w w' : ReplayWindow} {seq : UInt64}
    {aad body tag plain : Octets} (h : openInPlace dec w seq aad body tag = .ok (.ok plain, w')) :
    tag.length = tagLen ∧ w.wouldAccept seq = true ∧
      dec (seqNonce seq) aad body tag = some plain ∧ w.commit seq = .ok w' := by
  unfold openInPlace at h
  split at h
  · cases h
  next htag =>
  split at h
  · cases h
  next hacc =>
  split at h
  · cases h
  next p hdec =>
  simp only [Checked.bind_eq_ok, Checked.pure_eq_ok, Prod.mk.injEq] at h
  obtain ⟨w'', hw, hp, rfl⟩ := h
  cases hp
  exact ⟨not_not.mp htag, by simpa using hacc, hdec, hw⟩

theorem openDatagram_none {dec : Decrypt} {w w' : ReplayWindow} {t : UInt64} {buf : Octets}
    (h : openDatagram dec w t buf = .ok (none, w')) : w' = w := by
  unfold openDatagram at h
  split at h
  · cases h; rfl
  split at h
  · cases h; rfl
  simp only [Checked.bind_eq_ok] at h
  obtain ⟨⟨r, w₁⟩, hr, h⟩ := h
  rcases r with e | body
  · simp only [Checked.pure_eq_ok, Prod.mk.injEq, true_and] at h
    rw [← h]
    exact openInPlace_error hr
  · simp [Checked.pure_eq_ok] at h

/-- Opening returns when only numbers below `u64::MAX` authenticate. -/
theorem openDatagram_total {dec : Decrypt} {w : ReplayWindow} {acc : List UInt64} {t : UInt64}
    {buf : Octets} (hw : w.Holds acc)
    (hdec : ∀ aad body tag plain, dec (seqNonce (wireSeq buf)) aad body tag = some plain →
      wireSeq buf < u64Max) :
    ∃ r w', openDatagram dec w t buf = .ok (r, w') := by
  have hin : ∀ aad body tag, ∃ r w',
      openInPlace dec w (wireSeq buf) aad body tag = .ok (r, w') := by
    intro aad body tag
    unfold openInPlace
    split
    · exact ⟨_, _, rfl⟩
    split
    · exact ⟨_, _, rfl⟩
    next hacc =>
    split
    · exact ⟨_, _, rfl⟩
    next plain hp =>
    obtain ⟨w', hw', -⟩ := hw.commit (.inl (hdec _ _ _ _ hp)) (by simpa using hacc)
    exact ⟨.ok plain, w', by rw [hw']; rfl⟩
  unfold openDatagram
  split
  · exact ⟨_, _, rfl⟩
  split
  · exact ⟨_, _, rfl⟩
  obtain ⟨r, w', hr⟩ := hin ((buf.take (buf.length - tagLen)).take headerLen)
    ((buf.take (buf.length - tagLen)).drop headerLen) (buf.drop (buf.length - tagLen))
  simp only [hr, Checked.ok_bind]
  rcases r with e | plain
  · exact ⟨_, _, rfl⟩
  · exact ⟨_, _, rfl⟩

/-- Everything a successful open says about its buffer. -/
structure Opened (dec : Decrypt) (w : ReplayWindow) (t : UInt64) (buf : Octets) (b : UInt32)
    (payload : Octets) (w' : ReplayWindow) where
  /-- The ciphertext and the tag of the buffer. -/
  cipher : Octets
  tag : Octets
  plain : Octets
  split : buf = header t (wireSeq buf) ++ cipher ++ tag
  accepted : w.wouldAccept (wireSeq buf) = true
  decrypted : dec (seqNonce (wireSeq buf)) (header t (wireSeq buf)) cipher tag = some plain
  index : b = UInt32.ofNat (fromLe (plain.take 4))
  rest : payload = plain.drop 4
  committed : w.commit (wireSeq buf) = .ok w'

theorem openDatagram_some {dec : Decrypt} {w w' : ReplayWindow} {t : UInt64} {buf : Octets}
    {b : UInt32} {payload : Octets}
    (h : openDatagram dec w t buf = .ok (some (b, payload), w')) :
    Nonempty (Opened dec w t buf b payload w') := by
  unfold openDatagram at h
  split at h
  · cases h
  next hpre =>
  split at h
  · cases h
  next htag =>
  simp only [not_or, not_lt, not_not] at hpre htag
  obtain ⟨hlen, hmagic⟩ := hpre
  subst htag
  have hlen' : headerLen + tagLen + 4 ≤ buf.length := hlen
  simp only [Checked.bind_eq_ok] at h
  obtain ⟨⟨r, w₁⟩, hr, h⟩ := h
  rcases r with e | plain
  · simp [Checked.pure_eq_ok] at h
  simp only [Checked.pure_eq_ok, Prod.mk.injEq, Option.some.injEq] at h
  obtain ⟨⟨rfl, rfl⟩, rfl⟩ := h
  obtain ⟨-, hacc, hdec, hcom⟩ := openInPlace_ok hr
  have hhead : (buf.take (buf.length - tagLen)).take headerLen =
      header (wireTag buf) (wireSeq buf) := by
    rw [List.take_take, Nat.min_eq_left (by omega)]
    exact take_header (by omega) hmagic
  rw [hhead] at hdec
  refine ⟨⟨_, _, plain, ?_, hacc, hdec, rfl, rfl, hcom⟩⟩
  rw [← hhead, List.take_append_drop, List.take_append_drop]

/-! ## Opening under the ideal AEAD -/

/-- The record of the seal call under tag `t` and number `q` of a pair. -/
structure SealedAs (e : Sealed) (t q : UInt64) (b : UInt32) (payload : Octets) : Prop where
  nonce : e.nonce = seqNonce q
  aad : e.aad = header t q
  plain : e.plain = sealBody b payload

namespace Opened

variable {table : List Sealed} {dec : Decrypt} {w w' : ReplayWindow} {t : UInt64} {buf : Octets}
  {b : UInt32} {payload : Octets}

/-- What opens was sealed: its record is in the table, under the opener's tag
and the number in the header, with the pair that comes out. -/
theorem sealedAs (o : Opened (decryptTable table) w t buf b payload w') :
    ∃ e ∈ table, e.cipher = o.cipher ∧ e.tag = o.tag ∧
      ∀ {t' q b' payload'}, SealedAs e t' q b' payload' →
        t = t' ∧ wireSeq buf = q ∧ b = b' ∧ payload = payload' := by
  refine ⟨_, decryptTable_eq_some o.decrypted, rfl, rfl, fun {t' q b' payload'} hs => ?_⟩
  obtain rfl : wireSeq buf = q := seqNonce_inj hs.nonce
  obtain ⟨hb, hp⟩ := sealBody_split b' payload'
  have hplain : o.plain = sealBody b' payload' := hs.plain
  refine ⟨header_tag_inj hs.aad, rfl, ?_, ?_⟩
  · rw [o.index, hplain, hb]
  · rw [o.rest, hplain, hp]

theorem holds (o : Opened dec w t buf b payload w') {acc : List UInt64} (hw : w.Holds acc)
    (hmax : (wireSeq buf).toNat + 1 < 2 ^ 64) :
    w'.Holds (acc ++ [wireSeq buf]) ∧ wireSeq buf ∉ acc := by
  obtain ⟨w'', hw'', hh⟩ := hw.commit (.inl (ReplayWindow.lt_max_iff.mpr hmax)) o.accepted
  cases o.committed.symm.trans hw''
  exact ⟨hh, fun hmem =>
    Bool.false_ne_true ((hw.not_wouldAccept hmem).symm.trans o.accepted)⟩

end Opened

end AtpExperiment
