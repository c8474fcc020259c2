/-
What the two ends know of each other, in both modes and for any AEAD and any
datagrams.

`ok_only_if_verified`: Ok is returned, at either end, only where every block
is Done and the file's hash is that of the sender's data. `acked_is_stored`:
an ack, wherever it is under way, is for a block the receiver has stored, so a
round leaves out only such blocks.
-/
import AtpExperiment.Session

namespace AtpExperiment

open Octets Aead Duplex

variable {rq : Raptorq}

/-! ## Hashes -/

theorem sha256File_eq {sha : Sha256} {file : Octets} {chunks : List Octets}
    (h : ReadsOf file chunks) : sha256File sha chunks = hexEncode (sha.digest file) := by
  rw [sha256File, sha.stream, h.1, Sha256.digest]

namespace Session

/-! ## Outcomes -/

theorem Inv.verified {S : Session} {s : Sys rq} (hi : S.Inv s)
    (hok : s.snd.pc = .returned (.ok ()) ∨ s.rcv.pc = .returned (.ok ())) :
    s.rcv.Verified S.sha := by
  rcases hok with hok | hok
  · obtain ⟨e, he⟩ := hi.returned hok
    exact (hi.recv.done e he).1
  · exact hi.recv.verified hok

/-- **Outcome agreement.** Over any interleaving, any cuts and any datagrams,
if either end has returned Ok then every block of the receiver is Done, and
the hash that `sha256_file` computed of its file, which is the same over any
read sizes, is the one in the Manifest: that of the sender's data. -/
theorem ok_only_if_verified (S : Session) {s : Sys rq} (h : S.Reachable s)
    (hok : s.snd.pc = .returned (.ok ()) ∨ s.rcv.pc = .returned (.ok ())) :
    ∃ x, s.rcv.live = some x ∧ x.layout = S.cfg.layout ∧
      x.col.blocks.length = S.cfg.layout.numBlocks.toNat ∧
      (∀ b, b < S.cfg.layout.numBlocks → x.col.blocks[b.toNat]? = some .done) ∧
      s.rcv.actual = some S.cfg.sha256 ∧
      (∀ chunks, ReadsOf x.col.file chunks → sha256File S.sha chunks = S.cfg.sha256) ∧
      S.sha.digest x.col.file = S.sha.digest S.cfg.data := by
  have hi := h.inv
  obtain ⟨x, chunks, hx, hlen, hdone, hreads, hact, heq⟩ := hi.verified hok
  obtain ⟨-, hsha, hl⟩ := hi.agreed.live x hx
  rw [hl] at hlen hdone
  have hfile : hexEncode (S.sha.digest x.col.file) = S.cfg.sha256 := by
    rw [← sha256File_eq hreads, heq, hsha]
  refine ⟨x, hx, hl, hlen, hdone, by rw [hact, heq, hsha], fun cs hcs => ?_, ?_⟩
  · rw [sha256File_eq hcs, hfile]
  · exact hexEncode_inj (hfile.trans S.digest)

/-- A transfer that succeeds: both ends return Ok on the same 16 bytes. -/
theorem ok_verified_tiny : ∃ s : Sys .repetition, tiny.Reachable s ∧
    s.snd.pc = .returned (.ok ()) ∧ ∃ x, s.rcv.live = some x ∧
      x.col.blocks[(0 : UInt32).toNat]? = some .done ∧ x.col.file = tinyData := by
  obtain ⟨s, h, hok, -, -⟩ := tiny_finished
  obtain ⟨x, hx, -, -, hdone, -, -, hdigest⟩ := ok_only_if_verified tiny h (.inl hok)
  exact ⟨s, h, hok, x, hx, hdone 0 (by decide), hdigest⟩

/-! ## Acks -/

/-- Block `b` is Done at the receiver, and the file holds, at the range the
layout gives `b`, an answer of its decoder that was written there. -/
def StoredAt (cfg : SendCfg) (s : Sys rq) (b : UInt32) : Prop :=
  ∃ x r data, s.rcv.live = some x ∧ x.col.blocks[b.toNat]? = some .done ∧
    cfg.layout.range b = .ok r ∧ Collect.DecodedFrom rq cfg.layout (fun _ _ => True) b data ∧
    ⟨b, r.start, data⟩ ∈ x.col.writes ∧ data.length = r.stop - r.start ∧
    HoldsAt x.col.file r.start data

/-- What the receiver acked it has stored. -/
theorem Inv.storedAt {S : Session} {s : Sys rq} (hi : S.Inv s) {b : UInt32}
    (hb : .blockDecoded b ∈ s.rcv.wrote) : StoredAt S.cfg s b := by
  obtain ⟨x, hx, hdone⟩ := hi.recv.acked b hb
  have hcol := hi.recv.col x hx
  have hrange := Layout.range_of_lt (hcol.lt_of_done hdone)
  obtain ⟨-, data, hmem, hlen, hold⟩ := hcol.stored b hdone
  have hfed := (hi.fed x hx).writes _ hmem
  rw [(hi.agreed.live x hx).2.2] at hrange hmem hlen hold hfed
  exact ⟨x, _, data, hx, hdone, hrange, hfed, hmem, hlen, hold⟩

theorem Inv.storedAt_of_acked {S : Session} {s : Sys rq} (hi : S.Inv s) {b : UInt32}
    (hb : .blockDecoded b ∈ s.toSend.queue ∨ .decoded b ∈ s.snd.chan ∨
      s.snd.v.acked[b.toNat]? = some true) : StoredAt S.cfg s b := by
  apply hi.storedAt
  rcases hb with hb | hb | hb
  · exact hi.toSend _ hb
  · exact hi.chan _ hb _ rfl
  · exact hi.acked b hb

/-- **Ack soundness.** At every moment of every interleaving, for any
datagrams: a block is stored at the receiver if its ack is on the control
stream, in the feedback channel or recorded by the sender. So at every point
of a round, and at its end unless the receiver is gone, a block is still to
come, had its turn in this round, or is stored. -/
theorem acked_is_stored (S : Session) {s : Sys rq} (h : S.Reachable s) :
    (∀ b, .blockDecoded b ∈ s.toSend.queue ∨ .decoded b ∈ s.snd.chan ∨
      s.snd.v.acked[b.toNat]? = some true → StoredAt S.cfg s b) ∧
    (∀ todo, s.snd.pc.todo = some todo → ∀ b, b < S.cfg.layout.numBlocks →
      b ∈ todo ∨ s.snd.Turned b ∨ StoredAt S.cfg s b) ∧
    (s.snd.pc = .roundEnd → s.snd.v.receiverGone = false → ∀ b, b < S.cfg.layout.numBlocks →
      s.snd.Turned b ∨ StoredAt S.cfg s b) := by
  have hi := h.inv
  refine ⟨fun b hb => hi.storedAt_of_acked hb, fun todo ht b hb => ?_, fun he hg b hb => ?_⟩
  · rcases hi.rounds.todo todo ht b hb with hmem | hturn | hack
    · exact .inl hmem
    · exact .inr (.inl hturn)
    · exact .inr (.inr (hi.storedAt_of_acked (.inr (.inr hack))))
  · rcases hi.rounds.ended he with hgone | hc
    · rw [hg] at hgone
      cases hgone
    · rcases hc b hb with hmem | hturn | hack
      · cases hmem
      · exact .inl hturn
      · exact .inr (hi.storedAt_of_acked (.inr (.inr hack)))

/-- An ack that arrived. -/
theorem acked_stored_tiny : ∃ s : Sys .repetition, tiny.Reachable s ∧
    s.snd.v.acked[(0 : UInt32).toNat]? = some true ∧ StoredAt tiny.cfg s 0 := by
  obtain ⟨s, h, -, -, hack⟩ := tiny_finished
  exact ⟨s, h, hack, (acked_is_stored tiny h).1 0 (.inr (.inr hack))⟩

end Session

end AtpExperiment
