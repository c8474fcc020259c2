/-
Datagrams through a batch buffer: what `encode_into` appends on either plane
is cut apart and opened again.

`roundTrip`: for a cipher and its inverse, any tag, any pairs with payloads of
one length and any bytes already in the buffer, the buffer grows by one
datagram of `wire_len` bytes a pair, and the pieces, opened in any order by the
other side's fresh plane, return the pairs. On the sealed plane this is where
the replay window matters: 4096 numbers in any order are all accepted.
-/
import AtpExperiment.Datagram
import AtpExperiment.Lib.Chunks
import AtpExperiment.SealedRun

namespace AtpExperiment

open Octets Aead Sealed Chunks

/-! ## The planes over many datagrams -/

namespace TxPlane

/-- `TxPlane::encode`: into a fresh buffer, `none` when the seal failed. -/
def encode (enc : Encrypt) (plane : TxPlane) (transferTag : UInt64) (blockIndex : UInt32)
    (payload : Octets) : Option Octets × TxPlane :=
  match plane with
  | .plain => (some (Datagram.encode transferTag blockIndex payload), .plain)
  | .sealed sealer =>
    let r := sealDatagram enc sealer transferTag blockIndex payload
    (if r.sealed.isSome then some r.out else none, .sealed r.sealer)

/-- `encode_into(..)?` of one pair after the other. -/
def encodeAll (enc : Encrypt) (transferTag : UInt64) :
    TxPlane → List (UInt32 × Octets) → Octets → Option (TxPlane × Octets)
  | plane, [], out => some (plane, out)
  | plane, (b, payload) :: ps, out =>
    let r := plane.encodeInto enc transferTag b payload out
    if r.ok then encodeAll enc transferTag r.plane ps r.out else none

/-- The other side's plane as a transfer starts. -/
def opener : TxPlane → RxPlane
  | .plain => .plain
  | .sealed _ => .sealed .new

/-- A receiver's plane of the same kind. -/
def Matches : TxPlane → RxPlane → Prop
  | .plain, .plain => True
  | .sealed _, .sealed _ => True
  | _, _ => False

/-- `n` more datagrams fit into the replay window, and their numbers do not wrap
around. -/
def Room (n : Nat) : TxPlane → Prop
  | .plain => True
  | .sealed sealer => n ≤ 4096 ∧ sealer.seq.toNat + n < 2 ^ 64

theorem encode_eq (enc : Encrypt) (plane : TxPlane) (t : UInt64) (b : UInt32) (payload : Octets) :
    plane.encode enc t b payload =
      let r := plane.encodeInto enc t b payload []
      (if r.ok then some r.out else none, r.plane) := by
  cases plane <;> rfl

end TxPlane

/-- `RxPlane::open` of one buffer after the other. -/
def RxPlane.openAll (dec : Decrypt) (transferTag : UInt64) :
    RxPlane → List Octets → Checked (List (Option (UInt32 × Octets)) × RxPlane)
  | plane, [] => return ([], plane)
  | plane, buf :: bufs => do
    let (r, plane) ← plane.open dec transferTag buf
    let (rs, plane) ← plane.openAll dec transferTag bufs
    return (r :: rs, plane)

/-! ## One datagram -/

namespace Datagram

theorem length_encode (t : UInt64) (b : UInt32) (payload : Octets) :
    (encode t b payload).length = headerLen + payload.length := by
  simp [encode, encodeInto, magic, headerLen]
  omega

theorem encodeInto_eq (t : UInt64) (b : UInt32) (payload out : Octets) :
    encodeInto t b payload out = out ++ encode t b payload := by
  simp [encode, encodeInto]

theorem decode_encode (t t' : UInt64) (b : UInt32) (payload : Octets) :
    decode t' (encode t b payload) = if t = t' then some ⟨b, payload⟩ else none := by
  have hform : encode t b payload =
      magic ++ leBytes 8 t.toNat ++ (leBytes 4 b.toNat ++ payload) := by simp [encode, encodeInto]
  have hform' : encode t b payload =
      (magic ++ leBytes 8 t.toNat) ++ leBytes 4 b.toNat ++ payload := by simp [encode, encodeInto]
  have hmagic : (encode t b payload).take 4 = magic := by
    rw [hform, List.append_assoc]
    exact List.take_left' rfl
  have htag : UInt64.ofNat (fromLe (slice (encode t b payload) 4 12)) = t := by
    rw [hform, slice_append (show magic.length = 4 from rfl) (length_leBytes 8 _),
      ofNat_fromLe_leBytes]
  have hblock : UInt32.ofNat (fromLe (slice (encode t b payload) 12 16)) = b := by
    have hb := b.toNat_lt
    rw [hform', slice_append (by simp [magic]) (length_leBytes 4 _), fromLe_leBytes,
      Nat.mod_eq_of_lt (by omega), UInt32.ofNat_toNat]
  have hrest : (encode t b payload).drop headerLen = payload := by
    rw [hform']
    exact List.drop_left' (by simp [magic, headerLen])
  have hguard : ¬ ((encode t b payload).length < headerLen ∨
      (encode t b payload).take 4 ≠ magic) := by
    rw [length_encode, hmagic]
    simp
  rw [decode, if_neg hguard, htag, hblock, hrest]
  by_cases h : t = t' <;> simp [h]

end Datagram

/-- `d` is the sealed datagram of a pair under tag `t` and number `q`. -/
def SealedWire (dec : Decrypt) (t q : UInt64) (b : UInt32) (payload d : Octets) : Prop :=
  ∃ cipher tag, d = header t q ++ cipher ++ tag ∧ cipher.length = 4 + payload.length ∧
    tag.length = tagLen ∧ dec (seqNonce q) (header t q) cipher tag = some (sealBody b payload)

namespace SealedWire

variable {dec : Decrypt} {t q : UInt64} {b : UInt32} {payload d : Octets}

theorem length (h : SealedWire dec t q b payload d) : d.length = overhead + 4 + payload.length := by
  obtain ⟨cipher, tag, rfl, hc, ht, -⟩ := h
  rw [List.length_append, List.length_append, length_header, hc, ht, overhead]
  omega

theorem wireSeq (h : SealedWire dec t q b payload d) : wireSeq d = q := by
  obtain ⟨cipher, tag, rfl, -⟩ := h
  rw [List.append_assoc, wireSeq_header]

theorem wireTag (h : SealedWire dec t q b payload d) : wireTag d = t := by
  obtain ⟨cipher, tag, rfl, -⟩ := h
  rw [header, List.append_assoc, List.append_assoc, AtpExperiment.wireTag,
    slice_append (show magic.length = 4 from rfl) (length_leBytes 8 _), ofNat_fromLe_leBytes]

theorem guard (h : SealedWire dec t q b payload d) :
    ¬ (d.length < overhead + 4 ∨ d.take 4 ≠ magic) := by
  have hlen := h.length
  obtain ⟨cipher, tag, rfl, -⟩ := h
  have hmagic : (header t q ++ cipher ++ tag).take 4 = magic := by
    rw [header]
    simp only [List.append_assoc]
    exact List.take_left' rfl
  rw [hmagic, hlen]
  simp

theorem open_other (h : SealedWire dec t q b payload d) {t' : UInt64} (ht : t' ≠ t)
    (w : ReplayWindow) : openDatagram dec w t' d = .ok (none, w) := by
  rw [openDatagram, if_neg h.guard, if_pos (by rw [h.wireTag]; exact ht.symm)]
  rfl

/-- Where its number is accepted, it opens to its pair and the number is
committed. -/
theorem open_eq (h : SealedWire dec t q b payload d) {w w' : ReplayWindow}
    (hacc : w.wouldAccept q = true) (hcom : w.commit q = .ok w') :
    openDatagram dec w t d = .ok (some (b, payload), w') := by
  rw [openDatagram, if_neg h.guard, if_neg (by rw [h.wireTag]; simp), h.wireSeq]
  obtain ⟨cipher, tag, rfl, hc, ht, hdec⟩ := h
  have hbody : (header t q ++ cipher).length = (header t q ++ cipher ++ tag).length - tagLen := by
    simp only [List.length_append, ht]
    omega
  obtain ⟨hb, hp⟩ := sealBody_split b payload
  simp only [List.take_left' hbody, List.drop_left' hbody, List.take_left' (length_header t q),
    List.drop_left' (length_header t q)]
  simp only [openInPlace, ht, ne_eq, not_true_eq_false, if_false, hacc, Bool.not_true,
    Bool.false_eq_true, hdec, hcom, Checked.ok_bind]
  simp only [pure, Except.pure, Checked.ok_bind, hb, hp]

end SealedWire

/-! ## Encoding -/

namespace TxPlane

theorem encodeAll_plain (enc : Encrypt) (t : UInt64) (ps : List (UInt32 × Octets)) (out : Octets) :
    encodeAll enc t .plain ps out =
      some (.plain, out ++ (ps.map fun p => Datagram.encode t p.1 p.2).flatten) := by
  induction ps generalizing out with
  | nil => simp [encodeAll]
  | cons p ps ih => simp [encodeAll, encodeInto, Datagram.encodeInto_eq, ih]

theorem encodeInto_wire {enc : Encrypt} {dec : Decrypt} (hsize : InPlace enc tagLen)
    (hinv : Inverse enc dec) {q t : UInt64} {b : UInt32} {payload out : Octets}
    (hok : ((TxPlane.sealed ⟨q⟩).encodeInto enc t b payload out).ok = true) :
    ((TxPlane.sealed ⟨q⟩).encodeInto enc t b payload out).plane = .sealed ⟨q + 1⟩ ∧
      ∃ d, ((TxPlane.sealed ⟨q⟩).encodeInto enc t b payload out).out = out ++ d ∧
        SealedWire dec t q b payload d := by
  obtain ⟨cipher, tag, henc, hplane, hout⟩ := encodeInto_sealed_ok hok
  obtain ⟨hc, ht⟩ := hsize _ _ _ _ _ henc
  refine ⟨hplane, _, hout, cipher, tag, rfl, ?_, ht, hinv _ _ _ _ _ henc⟩
  rw [hc, sealBody, List.length_append, length_leBytes]

/-- The datagrams of a batch on the sealed plane: one a pair, under numbers
that count up from the sealer's until the counter wraps around. -/
theorem encodeAll_sealed {enc : Encrypt} {dec : Decrypt} (hsize : InPlace enc tagLen)
    (hinv : Inverse enc dec) {t q : UInt64} {ps : List (UInt32 × Octets)} {out out' : Octets}
    {plane : TxPlane} (h : encodeAll enc t (.sealed ⟨q⟩) ps out = some (plane, out')) :
    ∃ ds : List Octets, out' = out ++ ds.flatten ∧
      List.Forall₂ (fun p d => SealedWire dec t (wireSeq d) p.1 p.2 d) ps ds ∧
      (q.toNat + ps.length < 2 ^ 64 →
        (∀ d ∈ ds, q.toNat ≤ (wireSeq d).toNat ∧ (wireSeq d).toNat < q.toNat + ps.length) ∧
          (ds.map wireSeq).Nodup) := by
  induction ps generalizing q out with
  | nil =>
    obtain ⟨-, rfl⟩ := Prod.mk.inj (Option.some.inj h)
    exact ⟨[], by simp, .nil, fun _ => ⟨by simp, .nil⟩⟩
  | cons p ps ih =>
    simp only [encodeAll] at h
    split at h
    · next hok =>
      obtain ⟨hplane, d, hout, hd⟩ := encodeInto_wire hsize hinv hok
      rw [hplane, hout] at h
      obtain ⟨ds, rfl, hall, hcount⟩ := ih h
      refine ⟨d :: ds, by simp, .cons (by rw [hd.wireSeq]; exact hd) hall, fun hq => ?_⟩
      rw [List.length_cons] at hq
      have hsucc : (q + 1).toNat = q.toNat + 1 := ReplayWindow.toNat_succ (by omega)
      obtain ⟨hrange, hnodup⟩ := hcount (by omega)
      rw [hsucc] at hrange
      constructor
      · intro d' hd'
        rw [List.length_cons]
        rcases List.mem_cons.mp hd' with rfl | hd'
        · rw [hd.wireSeq]
          omega
        · have := hrange d' hd'
          omega
      · -- The later numbers are all above this one.
        rw [List.map_cons, List.nodup_cons]
        refine ⟨fun hmem => ?_, hnodup⟩
        obtain ⟨d', hd', he⟩ := List.mem_map.mp hmem
        have := (hrange d' hd').1
        rw [he, hd.wireSeq] at this
        omega
    · cases h

/-- A batch fails only where the AEAD does. -/
theorem encodeAll_isSome {enc : Encrypt} (henc : ∀ nonce aad body, (enc nonce aad body).isSome)
    (t : UInt64) (plane : TxPlane) (ps : List (UInt32 × Octets)) (out : Octets) :
    (encodeAll enc t plane ps out).isSome := by
  induction ps generalizing plane out with
  | nil => rfl
  | cons p ps ih =>
    have hok : (plane.encodeInto enc t p.1 p.2 out).ok = true := by
      cases plane with
      | plain => rfl
      | sealed sealer =>
        simp only [encodeInto, sealDatagramInto_eq, encryptCall]
        obtain ⟨ct, hct⟩ := Option.isSome_iff_exists.mp (henc (seqNonce sealer.seq)
          (header t sealer.seq) (sealBody p.1 p.2))
        rw [hct]
        rfl
    simp only [encodeAll, hok, if_true]
    exact ih _ _

end TxPlane

/-! ## Opening -/

namespace RxPlane

theorem openAll_plain (dec : Decrypt) (t : UInt64) {xs : List ((UInt32 × Octets) × Octets)}
    (h : ∀ x ∈ xs, x.2 = Datagram.encode t x.1.1 x.1.2) :
    openAll dec t .plain (xs.map Prod.snd) = .ok (xs.map fun x => some x.1, .plain) := by
  induction xs with
  | nil => rfl
  | cons x xs ih =>
    have hx : RxPlane.plain.open dec t x.2 = .ok (some x.1, .plain) := by
      simp only [RxPlane.open, h x List.mem_cons_self, Datagram.decode_encode, if_true]
      rfl
    simp only [List.map_cons, openAll, hx, Checked.ok_bind,
      ih fun y hy => h y (List.mem_cons_of_mem _ hy)]
    rfl

/-- Datagrams whose numbers the window accepts, distinct and within 4096 of
each other, open in any order; the window then holds their numbers too. -/
theorem openAll_accepted {dec : Decrypt} {t : UInt64} {xs : List ((UInt32 × Octets) × Octets)}
    {w : ReplayWindow} {acc : List UInt64} (hw : w.Holds acc)
    (hxs : ∀ x ∈ xs, SealedWire dec t (wireSeq x.2) x.1.1 x.1.2 x.2 ∧ wireSeq x.2 < u64Max ∧
      w.wouldAccept (wireSeq x.2) = true)
    (hnear : ∀ x ∈ xs, ∀ y ∈ xs, (wireSeq x.2).toNat - (wireSeq y.2).toNat < 4096)
    (hnodup : (xs.map fun x => wireSeq x.2).Nodup) :
    ∃ w', openAll dec t (.sealed w) (xs.map Prod.snd) =
      .ok (xs.map fun x => some x.1, .sealed w') ∧
      w'.Holds (acc ++ xs.map fun x => wireSeq x.2) := by
  induction xs generalizing w acc with
  | nil => exact ⟨w, rfl, by simpa using hw⟩
  | cons x xs ih =>
    obtain ⟨hwire, hmax, haccept⟩ := hxs x List.mem_cons_self
    rw [List.map_cons, List.nodup_cons] at hnodup
    obtain ⟨w₁, hcom, hw₁⟩ := hw.commit (.inl hmax) haccept
    have hopen : (RxPlane.sealed w).open dec t x.2 = .ok (some x.1, .sealed w₁) := by
      simp only [RxPlane.open, hwire.open_eq haccept hcom, Checked.ok_bind]
      rfl
    have hrest : ∀ y ∈ xs, SealedWire dec t (wireSeq y.2) y.1.1 y.1.2 y.2 ∧
        wireSeq y.2 < u64Max ∧ w₁.wouldAccept (wireSeq y.2) = true := by
      intro y hy
      obtain ⟨hwire', hmax', haccept'⟩ := hxs y (List.mem_cons_of_mem x hy)
      have hne : wireSeq y.2 ≠ wireSeq x.2 := by
        intro he
        exact hnodup.1 (he ▸ List.mem_map_of_mem hy)
      exact ⟨hwire', hmax', hw.wouldAccept_commit hw₁ haccept' hne
        (hnear x List.mem_cons_self y (List.mem_cons_of_mem x hy))⟩
    obtain ⟨w', hall, hw'⟩ := ih hw₁ hrest (fun y hy z hz =>
      hnear y (List.mem_cons_of_mem x hy) z (List.mem_cons_of_mem x hz)) hnodup.2
    refine ⟨w', ?_, by rwa [List.append_assoc] at hw'⟩
    simp only [List.map_cons, openAll, hopen, Checked.ok_bind, hall]
    rfl

end RxPlane

/-! ## Round trip -/

/-- Datagrams of a plane for pairs, one each: of the pair's wire length, silent
under another tag, and, if the window is wide enough, opened to the pairs in
any order. -/
structure Batch (dec : Decrypt) (tx : TxPlane) (t : UInt64) (ps : List (UInt32 × Octets))
    (ds : List Octets) : Prop where
  pairs : ds.length = ps.length
  length : ∀ x ∈ ps.zip ds, x.2.length = tx.wireLen x.1.2.length
  silent : ∀ d ∈ ds, ∀ t' rx, t' ≠ t → tx.Matches rx → rx.open dec t' d = .ok (none, rx)
  opens : tx.Room ps.length →
    ∀ xs : List ((UInt32 × Octets) × Octets), xs.Perm (ps.zip ds) →
      ∃ rx, tx.opener.openAll dec t (xs.map Prod.snd) = .ok (xs.map fun x => some x.1, rx)

theorem batch_plain (dec : Decrypt) (t : UInt64) (ps : List (UInt32 × Octets)) :
    Batch dec .plain t ps (ps.map fun p => Datagram.encode t p.1 p.2) := by
  have hzip : ∀ x ∈ ps.zip (ps.map fun p => Datagram.encode t p.1 p.2),
      x.2 = Datagram.encode t x.1.1 x.1.2 := by
    intro x hx
    rw [List.zip_map_right, List.mem_map] at hx
    obtain ⟨⟨p, p'⟩, hp, rfl⟩ := hx
    obtain rfl : p = p' := by
      rw [← List.map_id ps, List.zip_map'] at hp
      obtain ⟨y, -, he⟩ := List.mem_map.mp hp
      cases he
      rfl
    rfl
  refine ⟨List.length_map _, fun x hx => ?_, fun d hd t' rx ht hrx => ?_,
    fun _ xs hxs => ⟨.plain, ?_⟩⟩
  · rw [hzip x hx, Datagram.length_encode]
    rfl
  · cases rx with
    | sealed w => cases hrx
    | plain =>
      obtain ⟨p, -, rfl⟩ := List.mem_map.mp hd
      rw [RxPlane.open, Datagram.decode_encode, if_neg ht.symm]
      rfl
  · exact RxPlane.openAll_plain dec t fun x hx => hzip x (hxs.mem_iff.mp hx)

theorem batch_sealed {dec : Decrypt} {t q : UInt64} {ps : List (UInt32 × Octets)}
    {ds : List Octets}
    (hall : List.Forall₂ (fun p d => SealedWire dec t (wireSeq d) p.1 p.2 d) ps ds)
    (hcount : q.toNat + ps.length < 2 ^ 64 →
      (∀ d ∈ ds, q.toNat ≤ (wireSeq d).toNat ∧ (wireSeq d).toNat < q.toNat + ps.length) ∧
        (ds.map wireSeq).Nodup) : Batch dec (.sealed ⟨q⟩) t ps ds := by
  obtain ⟨hlen, hzip⟩ := List.forall₂_iff_zip.mp hall
  have hsnd : (ps.zip ds).map Prod.snd = ds := List.map_snd_zip hlen.ge
  refine ⟨hlen.symm, fun x hx => (hzip hx).length, fun d hd t' rx ht hrx => ?_,
    fun hroom xs hxs => ?_⟩
  · cases rx with
    | plain => cases hrx
    | sealed w =>
      rw [← hsnd] at hd
      obtain ⟨x, hx, rfl⟩ := List.mem_map.mp hd
      simp only [RxPlane.open, (hzip hx).open_other ht w, Checked.ok_bind]
      rfl
  · obtain ⟨hwin, hq⟩ : ps.length ≤ 4096 ∧ q.toNat + ps.length < 2 ^ 64 := hroom
    obtain ⟨hrange, hnodup⟩ := hcount hq
    have hperm : (xs.map Prod.snd).Perm ds := by
      rw [← hsnd]
      exact hxs.map _
    have hseq : ∀ x ∈ xs, q.toNat ≤ (wireSeq x.2).toNat ∧
        (wireSeq x.2).toNat < q.toNat + ps.length :=
      fun x hx => hrange x.2 (hperm.mem_iff.mp (List.mem_map_of_mem hx))
    have hfresh : ∀ x ∈ xs, SealedWire dec t (wireSeq x.2) x.1.1 x.1.2 x.2 ∧
        wireSeq x.2 < u64Max ∧ ReplayWindow.new.wouldAccept (wireSeq x.2) = true := by
      intro x hx
      have := hseq x hx
      exact ⟨hzip (hxs.mem_iff.mp hx), ReplayWindow.lt_max_iff.mpr (by omega), rfl⟩
    have hnear : ∀ x ∈ xs, ∀ y ∈ xs, (wireSeq x.2).toNat - (wireSeq y.2).toNat < 4096 := by
      intro x hx y hy
      have := hseq x hx
      have := hseq y hy
      omega
    have hdistinct : (xs.map fun x => wireSeq x.2).Nodup := by
      have := (hperm.map wireSeq).nodup_iff.mpr hnodup
      rwa [List.map_map] at this
    obtain ⟨w', hopen, -⟩ :=
      RxPlane.openAll_accepted ReplayWindow.holds_new hfresh hnear hdistinct
    exact ⟨_, hopen⟩

/-- **Datagrams through a batch buffer.** For a cipher in place and its inverse,
on either plane, for any tag, any pairs with payloads of length `n` and any
bytes before them: if the AEAD never fails the pairs are encoded; and where
they are, the bytes before are kept and one datagram of `wire_len(n)` bytes a
pair follows; cut apart, the datagrams open to their pairs in any order on the
other side's fresh plane (if sealed, up to 4096 of them, before the counter
wraps around), and none opens under another tag. Encoding into a fresh buffer
is encoding into an empty one. -/
theorem roundTrip {enc : Encrypt} {dec : Decrypt} (hsize : InPlace enc tagLen)
    (hinv : Inverse enc dec) (tx : TxPlane) (t : UInt64) (ps : List (UInt32 × Octets)) (n : Nat)
    (hn : ∀ p ∈ ps, p.2.length = n) (prior : Octets) :
    ((∀ nonce aad body, (enc nonce aad body).isSome) → (tx.encodeAll enc t ps prior).isSome) ∧
    (∀ tx' out, tx.encodeAll enc t ps prior = some (tx', out) →
      ∃ added, out = prior ++ added ∧ added.length = ps.length * tx.wireLen n ∧
        let ds := chunks (tx.wireLen n) added
        ds.length = ps.length ∧
        (tx.Room ps.length →
          ∀ xs : List ((UInt32 × Octets) × Octets), xs.Perm (ps.zip ds) →
            ∃ rx, tx.opener.openAll dec t (xs.map Prod.snd) = .ok (xs.map fun x => some x.1, rx)) ∧
        ∀ d ∈ ds, ∀ t' rx, t' ≠ t → tx.Matches rx → rx.open dec t' d = .ok (none, rx)) ∧
    ∀ b payload, tx.encode enc t b payload =
      let r := tx.encodeInto enc t b payload []
      (if r.ok then some r.out else none, r.plane) := by
  refine ⟨fun henc => TxPlane.encodeAll_isSome henc t tx ps prior, fun tx' out h => ?_,
    tx.encode_eq enc t⟩
  have hbatch : ∃ ds : List Octets, out = prior ++ ds.flatten ∧ Batch dec tx t ps ds := by
    cases tx with
    | plain =>
      rw [TxPlane.encodeAll_plain] at h
      cases h
      exact ⟨_, rfl, batch_plain dec t ps⟩
    | sealed sealer =>
      obtain ⟨ds, hout, hall, hcount⟩ := TxPlane.encodeAll_sealed hsize hinv h
      exact ⟨ds, hout, batch_sealed hall hcount⟩
  obtain ⟨ds, hout, hb⟩ := hbatch
  have hlen : ∀ d ∈ ds, d.length = tx.wireLen n := by
    intro d hd
    rw [← List.map_snd_zip (show ds.length ≤ ps.length from hb.pairs.le)] at hd
    obtain ⟨x, hx, rfl⟩ := List.mem_map.mp hd
    rw [hb.length x hx, hn _ (List.of_mem_zip hx).1]
  have hpos := tx.wireLen_pos n
  have hchunks : chunks (tx.wireLen n) ds.flatten = ds := by
    refine chunks_flatten_eq hpos (fun c hc => hlen c (List.dropLast_subset _ hc))
      (fun c hc he => ?_) fun c hc => (hlen c hc).le
    have := hlen c hc
    rw [he, List.length_nil] at this
    omega
  refine ⟨ds.flatten, hout, ?_, ?_⟩
  · rw [List.length_flatten, List.map_congr_left hlen, List.map_const', List.sum_replicate_nat,
      hb.pairs]
  · simp only [hchunks]
    exact ⟨hb.pairs, hb.opens, hb.silent⟩

/-- The inverse of the stand-in cipher. -/
def xorOpen : Decrypt := fun nonce aad cipher tag =>
  let body := cipher.map (· ^^^ 0x5a)
  if SealedRun.xorCipher nonce aad body = some (cipher, tag) then some body else none

theorem xorCipher_inverse : Inverse SealedRun.xorCipher xorOpen := by
  intro nonce aad body cipher tag h
  obtain ⟨hc, -⟩ := Prod.mk.inj (Option.some.inj h)
  have hback : cipher.map (· ^^^ 0x5a) = body := by
    rw [← hc, List.map_map]
    refine (List.map_congr_left fun x _ => ?_).trans (List.map_id body)
    show x ^^^ 0x5a ^^^ 0x5a = x
    rw [UInt8.xor_assoc, UInt8.xor_self, UInt8.xor_zero]
  simp only [xorOpen, hback, h, if_true]

/-- Two pairs sealed behind another byte, opened last first. -/
theorem roundTrip_two_sealed :
    let ps : List (UInt32 × Octets) := [(0, [1, 2]), (3, [4, 5])]
    ∃ tx added rx, (TxPlane.sealed ⟨5⟩).encodeAll SealedRun.xorCipher 7 ps [9] =
        some (tx, [9] ++ added) ∧ added.length = 2 * 42 ∧
      (RxPlane.sealed .new).openAll xorOpen 7 (chunks 42 added).reverse =
        .ok ([some (3, [4, 5]), some (0, [1, 2])], rx) := by
  intro ps
  obtain ⟨hsome, hall, -⟩ := roundTrip SealedRun.xorCipher_inPlace xorCipher_inverse
    (.sealed ⟨5⟩) 7 ps 2 (by decide) [9]
  obtain ⟨⟨tx, out⟩, h⟩ := Option.isSome_iff_exists.mp (hsome fun _ _ _ => rfl)
  obtain ⟨added, rfl, hlen, hds, hopens, -⟩ := hall tx out h
  obtain ⟨d₀, d₁, hd⟩ := List.length_eq_two.mp hds
  obtain ⟨rx, hrx⟩ := hopens ⟨by decide, by decide⟩ _ (List.reverse_perm _)
  refine ⟨tx, added, rx, h, hlen, ?_⟩
  change RxPlane.openAll _ _ _ (chunks ((TxPlane.sealed ⟨5⟩).wireLen 2) added).reverse = _
  rw [hd] at hrx ⊢
  exact hrx

end AtpExperiment
