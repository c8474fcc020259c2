/-
What the sender sends: every packet of the spray loop is a symbol of its
block (`SymbolInv`), and on the sealed plane every packet, dropped or not,
takes one sequence number (`SendStep.sealed`).
-/
import AtpExperiment.SendFacts

namespace AtpExperiment

open Octets Aead Duplex Sealed

variable {rq : Raptorq} {enc : Encrypt} {cfg : SendCfg}

/-! ## Symbols -/

/-- `p` is a symbol of block `b` of the file. -/
def SymbolOf (rq : Raptorq) (cfg : SendCfg) (b : UInt32) (p : EncodingPacket) : Prop :=
  ∃ r, cfg.layout.range b = .ok r ∧
    rq.Genuine (slice cfg.data r.start r.stop) cfg.layout.symbolSize p

/-- An entry of the cache: the encoder of a block, with one source block. -/
def CachedFor (cfg : SendCfg) (x : UInt32 × rq.Encoder) : Prop :=
  ∃ r be, cfg.layout.range x.1 = .ok r ∧
    rq.encoderWithDefaults (slice cfg.data r.start r.stop) cfg.layout.symbolSize = .ok x.2 ∧
    rq.blockEncoders x.2 = [be]

theorem buildEncoder_ok {b : UInt32} {e : rq.Encoder}
    (h : buildEncoder cfg.layout cfg.data b = .ok e) : CachedFor cfg (b, e) := by
  simp only [buildEncoder, Checked.bind_eq_ok] at h
  obtain ⟨r, hr, h⟩ := h
  split at h
  · cases h
  simp only [Checked.bind_eq_ok] at h
  obtain ⟨e', he, h⟩ := h
  split at h
  · cases h
  next hlen =>
  cases h
  obtain ⟨be, hbe⟩ := List.length_eq_one_iff.mp (not_not.mp hlen)
  exact ⟨r, be, hr, he, hbe⟩

theorem getEncoder_ok {cache cache' : List (UInt32 × rq.Encoder)} {cap : Nat} {b : UInt32}
    {e : rq.Encoder} (hcap : 0 < cap) (hc : ∀ x ∈ cache, CachedFor cfg x)
    (h : getEncoder cache cap b cfg.layout cfg.data = .ok (e, cache')) :
    CachedFor cfg (b, e) ∧ ∀ x ∈ cache', CachedFor cfg x := by
  rcases getEncoder_cases hcap b cfg.layout cfg.data with
    ⟨entry, hfind, hget⟩ | ⟨e', -, hbuild, hget⟩ | ⟨p, -, hget⟩
  · cases h.symm.trans hget
    have hmem := hc entry (List.mem_of_find?_eq_some hfind)
    obtain rfl : entry.1 = b := by simpa using List.find?_some hfind
    refine ⟨hmem, fun x hx => ?_⟩
    rcases List.mem_cons.mp hx with rfl | hx
    · exact hmem
    · exact hc x (List.mem_of_mem_eraseP hx)
  · cases h.symm.trans hget
    have hnew := buildEncoder_ok hbuild
    refine ⟨hnew, fun x hx => ?_⟩
    rcases List.mem_cons.mp (List.mem_of_mem_take hx) with rfl | hx
    · exact hnew
    · exact hc x hx
  · cases h.symm.trans hget

theorem Spray.startTurn_symbols {v v' : Spray rq} {b : UInt32} {pkts : List EncodingPacket}
    (hc : ∀ x ∈ v.encoders, CachedFor cfg x) (h : v.startTurn cfg b = .ok (pkts, v')) :
    (∀ p ∈ pkts, SymbolOf rq cfg b p) ∧ ∀ x ∈ v'.encoders, CachedFor cfg x := by
  obtain ⟨e, be, bes, encoders, next, he, hbe, hpkts, rfl⟩ := startTurn_spec h
  obtain ⟨⟨r, be', hr, henc, hbe'⟩, hcache⟩ := getEncoder_ok (by decide) hc he
  refine ⟨fun p hp => ?_, hcache⟩
  obtain ⟨rfl, -⟩ := List.cons.inj (hbe.symm.trans hbe')
  exact ⟨r, hr, e, be, henc, hbe', hpkts p hp⟩

/-- The packets under way. -/
def SendPc.packetsOf : SendPc → Option (UInt32 × List EncodingPacket)
  | .packets b pkts _ | .flush b pkts _ => some (b, pkts)
  | _ => none

/-- Cached encoders are those of their blocks, packets under way symbols of theirs. -/
structure SymbolInv (cfg : SendCfg) (s : SendState rq) : Prop where
  cache : ∀ x ∈ s.v.encoders, CachedFor cfg x
  packets : ∀ b pkts, s.pc.packetsOf = some (b, pkts) → ∀ p ∈ pkts, SymbolOf rq cfg b p

theorem symbolInv_init (cfg : SendCfg) : SymbolInv cfg (SendState.init rq cfg) where
  cache x h := by cases h
  packets b pkts h := by cases h

theorem SprayStep.cache {chan : List Feedback} {v v' : Spray rq} {e : Option Sealed}
    (h : SprayStep enc cfg chan v e v') (hc : ∀ x ∈ v.encoders, CachedFor cfg x) :
    ∀ x ∈ v'.encoders, CachedFor cfg x := by
  cases h with
  | same | round => exact hc
  | flushed hg h =>
    obtain ⟨_, -, rfl⟩ := Spray.flushed_ok hg h
    exact hc
  | feedback _ h =>
    obtain ⟨_, _, _, _, _, rfl⟩ := Spray.onFeedback_frame h
    exact hc
  | startTurn h => exact (Spray.startTurn_symbols hc h).2
  | dropped h | queued h | failed h =>
    obtain ⟨_, _, _, _, _, _, rfl⟩ := Spray.sendPacket_frame h
    exact hc

theorem SendStep.packets {s s' : SendState rq} {a : Act Frame} {e : Option Sealed}
    (h : SendStep enc cfg s a e s') (hi : SymbolInv cfg s) {b : UInt32}
    {pkts : List EncodingPacket} (hp : s'.pc.packetsOf = some (b, pkts)) :
    ∀ p ∈ pkts, SymbolOf rq cfg b p := by
  have tail : ∀ {p ps}, s.pc.packetsOf = some (b, p :: ps) → ∀ q ∈ ps, SymbolOf rq cfg b q :=
    fun hp q hq => hi.packets b _ hp q (List.mem_cons_of_mem _ hq)
  cases h with
  | readerRead | readerFail | readerReturn => exact hi.packets b pkts hp
  | drainGo h =>
    rw [show s.pc = _ from h] at hp
    cases hp
  | turn h ha hv =>
    cases hp
    exact (Spray.startTurn_symbols hi.cache hv).1
  | dropped h =>
    cases hp
    exact tail (by rw [h]; rfl)
  | queued h =>
    simp only at hp
    split at hp <;> cases hp <;> exact tail (by rw [h]; rfl)
  | flush h now gone =>
    cases gone with
    | true => cases hp
    | false =>
      cases hp
      exact hi.packets b pkts (by rw [h]; rfl)
  | flushTail h now gone => cases gone <;> cases hp
  | @drainEmpty k =>
    rcases SendState.resume_cases cfg s.v k with hk | ⟨_, -, hk⟩ | hk | hk <;> rw [hk] at hp <;>
      cases hp
  | @packetsEnd _ todo =>
    rcases SendState.endTurn_cases s.v todo with hk | ⟨-, hk⟩ | hk <;> rw [hk] at hp <;> cases hp
  | @hello ok | @manifest _ ok => cases ok <;> cases hp
  | _ => cases hp

theorem SendStep.symbolInv {s s' : SendState rq} {a : Act Frame} {e : Option Sealed}
    (h : SendStep enc cfg s a e s') (hi : SymbolInv cfg s) : SymbolInv cfg s' where
  cache := h.spray.cache hi.cache
  packets _ _ hp := h.packets hi hp

/-! ## The sealed plane -/

/-- The sealer's counter is the number of packets sent. -/
def Spray.Synced (v : Spray rq) : Prop := v.plane = .sealed ⟨v.packetsSent⟩

/-- The record of a seal call under number `q` of a symbol of some block. -/
def SealedSymbol (rq : Raptorq) (cfg : SendCfg) (q : UInt64) (e : Sealed) : Prop :=
  ∃ b p, SymbolOf rq cfg b p ∧ SealedAs e cfg.transferTag q b (p.payloadId ++ p.data)

/-- A packet takes the next number, whether it is dropped, sealed or failed. -/
theorem Spray.sendPacket_sealed {v : Spray rq} {b : UInt32} {p : EncodingPacket} {out : Sent rq}
    (h : v.sendPacket enc cfg b p = .ok out) (hs : v.Synced) :
    out.locals.Synced ∧ v.packetsSent < out.locals.packetsSent ∧
      ∀ v' e, out = .queued v' e → ∃ x, e = some x ∧
        SealedAs x cfg.transferTag v.packetsSent b (p.payloadId ++ p.data) := by
  obtain ⟨n, rng, hn, hout⟩ := sendPacket_cases h
  have hcount : n.toNat = v.packetsSent.toNat + 1 := Checked.addU64_eq_ok hn
  have hnext : v.packetsSent + 1 = n := by
    apply UInt64.toNat.inj
    have := n.toNat_lt
    rw [UInt64.toNat_add, hcount]
    exact Nat.mod_eq_of_lt (by simp only [UInt64.toNat_one]; omega)
  have hlt : v.packetsSent < n := UInt64.lt_iff_toNat_lt.mpr (by omega)
  rw [Synced] at hs
  rcases hout with rfl | he
  · refine ⟨?_, hlt, fun v' e h => by cases h⟩
    simp only [Synced, Sent.locals, hs, TxPlane.burnSeq, SymbolSealer.nextSeq, hnext]
  · have hout := encodePacket_cases he
    simp only [hs] at hout
    obtain ⟨hplane, hok, hrec⟩ := TxPlane.encodeInto_sealed enc v.packetsSent cfg.transferTag b
      (p.payloadId ++ p.data) v.batch
    rw [hnext] at hplane
    rcases hout with ⟨hsome, bytes, rfl⟩ | ⟨-, rfl⟩
    · obtain ⟨x, hx⟩ := Option.isSome_iff_exists.mp (hok.symm.trans hsome)
      refine ⟨hplane, hlt, fun v' e h => ?_⟩
      cases h
      exact ⟨x, hx, hrec x hx⟩
    · exact ⟨hplane, hlt, fun v' e h => by cases h⟩

/-- Every step keeps the counter in step, and a record is under its number. -/
theorem SendStep.sealed {s s' : SendState rq} {a : Act Frame} {e : Option Sealed}
    (h : SendStep enc cfg s a e s') (hi : SymbolInv cfg s) (hs : s.v.Synced) :
    s'.v.Synced ∧ s.v.packetsSent ≤ s'.v.packetsSent ∧ ∀ x, e = some x →
      SealedSymbol rq cfg s.v.packetsSent x ∧ s.v.packetsSent < s'.v.packetsSent := by
  cases h with
  | drainGo _ _ hv =>
    obtain ⟨_, _, _, _, _, rfl⟩ := Spray.onFeedback_frame hv
    exact ⟨hs, UInt64.le_refl _, nofun⟩
  | turn _ _ hv =>
    obtain ⟨_, _, rfl⟩ := Spray.startTurn_frame hv
    exact ⟨hs, UInt64.le_refl _, nofun⟩
  | dropped h hv | encodeFail h hv =>
    obtain ⟨hsync, hlt, -⟩ := Spray.sendPacket_sealed hv hs
    exact ⟨hsync, UInt64.le_of_lt hlt, nofun⟩
  | @queued b p ps todo _ _ h hv =>
    obtain ⟨hsync, hlt, hrec⟩ := Spray.sendPacket_sealed hv hs
    obtain ⟨y, rfl, hy⟩ := hrec _ _ rfl
    have hp : s.pc.packetsOf = some (b, p :: ps) := by rw [h]; rfl
    refine ⟨hsync, UInt64.le_of_lt hlt, fun x hx => ?_⟩
    cases hx
    exact ⟨⟨b, p, hi.packets b _ hp p List.mem_cons_self, hy⟩, hlt⟩
  | flush _ _ _ hg hv | flushTail _ _ _ hg hv =>
    obtain ⟨_, -, rfl⟩ := Spray.flushed_ok hg hv
    exact ⟨hs, UInt64.le_refl _, nofun⟩
  | _ => exact ⟨hs, UInt64.le_refl _, nofun⟩

end AtpExperiment
