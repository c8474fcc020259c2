/-
Integrity of a sealed transfer.

`sealed_integrity`: with the ideal AEAD and a sound code, whatever the UDP
path does, a receiver that leaves its collection loop has the sender's file,
and the Done frame it writes says so.
-/
import AtpExperiment.Agreement
import AtpExperiment.SealedSession

namespace AtpExperiment

open Octets Aead Duplex

variable {rq : Raptorq} {cfg : SendCfg}

/-- A sound decoder fed symbols of a block of the file answers that block. -/
theorem Collect.DecodedFrom.eq_block (hrq : rq.Sound) {b : UInt32} {data : Octets}
    (h : DecodedFrom rq cfg.layout (SymbolOf rq cfg) b data) (hb : b < cfg.layout.numBlocks) :
    data = cfg.layout.block cfg.data b := by
  obtain ⟨d, d', p, ⟨oti, d₀, ps, hoti, hnew, hfeed, hps⟩, hp, hdec⟩ := h
  have hrange := Layout.range_of_lt hb
  have hgen : ∀ q, SymbolOf rq cfg b q →
      rq.Genuine (cfg.layout.block cfg.data b) cfg.layout.symbolSize q := by
    intro q hx
    obtain ⟨r, hr, hq⟩ := hx
    cases hrange.symm.trans hr
    exact hq
  rw [Layout.oti_of_lt hb, ← Layout.length_block cfg.fits] at hoti
  have hout := hrq hoti hnew hfeed (fun q hq => ?_) hdec
  · simpa using hout
  · rcases List.mem_append.mp hq with hq | hq
    · exact hgen q (hps q hq)
    · rw [List.mem_singleton.mp hq]
      exact hgen p hp

/-- A receiver with every block Done, fed symbols of the file only, has the file. -/
theorem Collect.file_eq (hrq : rq.Sound) {c : Collect rq} (hc : c.Inv cfg.layout)
    (hf : c.Fed cfg.layout (SymbolOf rq cfg)) (hd : ¬ c.decoded < cfg.layout.numBlocks) :
    c.file = cfg.data := by
  refine Layout.eq_of_holdsAt cfg.fits hc.file fun b hb => ?_
  obtain ⟨-, data, hmem, -, hold⟩ := hc.stored b (hc.all_done hd hb)
  rwa [← (hf.writes _ hmem).eq_block hrq hb]

namespace Session

variable {S : Session}

/-- Out of the loop, the file is the sender's. -/
theorem SealedInv.file_eq (hrq : rq.Sound) {s : Sys rq} (hi : S.Inv s) (hs : S.SealedInv s)
    (hl : s.rcv.pc.left = true) {x : Live rq} (hx : s.rcv.live = some x) :
    x.col.file = S.cfg.data := by
  obtain ⟨y, hy, hd⟩ := hi.recv.left hl
  cases hx.symm.trans hy
  have hc := hi.recv.col x hx
  have hf := hs.fed x hx
  rw [(hi.agreed.live x hx).2.2] at hc hf hd
  exact Collect.file_eq hrq hc hf hd

theorem done_ok (hrq : rq.Sound) {s : Sys rq} (hi : S.Inv s) (hs : S.SealedInv s)
    {dec : Decrypt} {f : Frame} {ok : Bool} {rcv : RecvState rq}
    (h : RecvStep S.sha S.rxPlane dec s.rcv (.write f ok) rcv) {ok' : Bool} {e : Option String}
    (hf : f = .done ok' e) : ok' = true := by
  cases h with
  | @done x actual _ h hx ha =>
    obtain ⟨y, chunks, hy, hreads, hact⟩ := hi.recv.hashed h
    cases hx.symm.trans hy
    cases ha.symm.trans hact
    have hfile := hs.file_eq hrq hi (by rw [h]; rfl) hx
    rw [hfile] at hreads
    have hsha : sha256File S.sha chunks = x.sha256 := by
      rw [sha256File_eq hreads, ← S.digest, (hi.agreed.live x hx).2.1]
    cases hf
    rw [hsha, beq_self_eq_true]
  | reject h =>
    have := hi.agreed.rejects
    rw [h] at this
    cases this
  | tick h hx hd tMs hr =>
    obtain ⟨-, span, -, rfl⟩ := Collect.report_eq_some (Collect.onTick_eq_ok.mp hr).1
    cases hf
  | helloAck | manifestAck | ack => cases hf

/-- **Sealed transfer integrity.** With the ideal AEAD and a sound code, for
every file, layout and behaviour of the UDP path, in every interleaving:
where the receiver has left its collection loop, the output file is byte for
byte the sender's data; and every Done frame it writes has `ok = true`. -/
theorem sealed_integrity (hrq : rq.Sound) (S : Session) (hp : S.cfg.plane = .sealed .new)
    (ha : S.aead = decryptTable) {s : Sys rq} (h : S.Reachable s) :
    (s.rcv.pc.left = true → ∃ x, s.rcv.live = some x ∧ x.col.file = S.cfg.data) ∧
    ∀ ok e, .done ok e ∈ s.rcv.wrote → ok = true := by
  refine ⟨fun hl => ?_, ?_⟩
  · obtain ⟨x, hx, -⟩ := h.inv.recv.left hl
    exact ⟨x, hx, (h.sealedInv hp ha).file_eq hrq h.inv hl hx⟩
  · have hQ : ∀ s : Sys rq, S.Reachable s → S.Inv s ∧ S.SealedInv s :=
      fun s hs => ⟨hs.inv, hs.sealedInv hp ha⟩
    refine Runs.Reachable.invariant_of h hQ (fun s => ∀ ok e, .done ok e ∈ s.rcv.wrote → ok = true)
      ?_ fun s t hq _ hi hst => ?_
    · intro s he ok e hd
      subst he
      cases hd
    · cases hst with
      | send | cutToRecv | cutToSend => exact hi
      | recv h hio =>
        intro ok e hd
        rcases h.wrote with ⟨f, ok', rfl, hw⟩ | ⟨-, hw⟩
        · rw [hw] at hd
          rcases List.mem_append.mp hd with hd | hd
          · exact hi ok e hd
          · exact done_ok hrq hq.1 hq.2 h (List.mem_singleton.mp hd).symm
        · exact hi ok e (by rwa [hw] at hd)

/-- The tiny file arrives. -/
theorem sealed_integrity_tiny : ∃ s : Sys .repetition, tiny.Reachable s ∧ s.rcv.pc = .sync ∧
    ∃ x, s.rcv.live = some x ∧ x.col.file = tiny.cfg.data := by
  obtain ⟨v, turns, c, -, -, -, -, h⟩ := tiny_collected
  exact ⟨_, h, rfl, (sealed_integrity Raptorq.sound_repetition tiny rfl rfl h).1 rfl⟩

end Session

end AtpExperiment
