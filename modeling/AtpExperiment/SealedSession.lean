/-
The session on the sealed plane, with the ideal AEAD: what the receiver
accepts is what the sender sealed.

`SealedInv` ties the counters of both ends together. `wire_loss_exact`: every
Progress frame measures the loss on the wire exactly, for any loss,
reordering, duplication and injection.
-/
import AtpExperiment.SendSymbols
import AtpExperiment.Session
import Mathlib.Data.Finset.Card

namespace AtpExperiment

open Octets Aead Duplex

variable {rq : Raptorq} {cfg : SendCfg}

/-! ## One datagram -/

/-- Every record of the table is that of a symbol, under a number below `n`. -/
def TableOf (rq : Raptorq) (cfg : SendCfg) (n : UInt64) (table : List Sealed) : Prop :=
  ∀ e ∈ table, ∃ q, q < n ∧ SealedSymbol rq cfg q e

/-- What opens is a symbol the sender sealed, under a number not accepted before. -/
theorem open_symbol {n : UInt64} {table : List Sealed} {w : ReplayWindow} {acc : List UInt64}
    {dgram payload : Octets} {b : UInt32} {plane : RxPlane} (ht : TableOf rq cfg n table)
    (hw : w.Holds acc) (h : (RxPlane.sealed w).open (decryptTable table) cfg.transferTag dgram =
      .ok (some (b, payload), plane)) :
    ∃ w' p, plane = .sealed w' ∧ w'.Holds (acc ++ [wireSeq dgram]) ∧ wireSeq dgram ∉ acc ∧
      wireSeq dgram < n ∧ SymbolOf rq cfg b p ∧ payload = p.payloadId ++ p.data := by
  obtain ⟨w', hw', rfl⟩ := RxPlane.open_sealed h
  obtain ⟨o⟩ := openDatagram_some hw'
  obtain ⟨e, he, -, -, hsame⟩ := o.sealedAs
  obtain ⟨q, hq, b', p, hp, hs⟩ := ht e he
  obtain ⟨-, rfl, rfl, rfl⟩ := hsame hs
  have hmax : (wireSeq dgram).toNat + 1 < 2 ^ 64 := by
    have := UInt64.lt_iff_toNat_lt.mp hq
    have := n.toNat_lt
    omega
  obtain ⟨hh, hfresh⟩ := o.holds hw hmax
  exact ⟨w', p, rfl, hh, hfresh, hq, hp, rfl⟩

/-- The receiver's counters and its window, with `n` packets sent: what it
opened has distinct numbers below `n`, the window holds them, and every packet
opened is counted. -/
structure Measured (n : UInt64) (c : Collect rq) : Prop where
  window : ∃ w, c.plane = .sealed w ∧ w.Holds (c.opened.map wireSeq)
  once : (c.opened.map wireSeq).Nodup
  sent : ∀ d ∈ c.opened, wireSeq d < n
  pkts : c.pkts.toNat = c.opened.length

theorem measured_new (l : Layout) (n : UInt64) : Measured n (.new rq (.sealed .new) l) where
  window := ⟨.new, rfl, ReplayWindow.holds_new⟩
  once := List.nodup_nil
  sent d h := by cases h
  pkts := rfl

theorem Measured.mono {n n' : UInt64} {c : Collect rq} (hc : Measured n c) (h : n ≤ n') :
    Measured n' c :=
  { hc with sent := fun d hd => UInt64.lt_of_lt_of_le (hc.sent d hd) h }

theorem Measured.opened {n : UInt64} {table : List Sealed} {c c' : Collect rq}
    {dgram payload : Octets} {b : UInt32} (hc : Measured n c) (ht : TableOf rq cfg n table)
    (h : c.plane.open (decryptTable table) cfg.transferTag dgram =
      .ok (some (b, payload), c'.plane))
    (hpkts : Checked.addU64 c.pkts 1 = .ok c'.pkts) (hopened : c'.opened = c.opened ++ [dgram]) :
    Measured n c' := by
  obtain ⟨w, hplane, hw⟩ := hc.window
  rw [hplane] at h
  obtain ⟨w', p, hplane', hw', hfresh, hlt, -, -⟩ := open_symbol ht hw h
  refine ⟨⟨w', hplane', ?_⟩, ?_, fun d hd => ?_, ?_⟩
  · rw [hopened, List.map_append]
    exact hw'
  · rw [hopened, List.map_append, List.nodup_append_comm]
    exact hc.once.cons hfresh
  · rw [hopened] at hd
    rcases List.mem_append.mp hd with hd | hd
    · exact hc.sent d hd
    · rw [List.mem_singleton.mp hd]
      exact hlt
  · rw [Checked.addU64_eq_ok hpkts, hopened, hc.pkts, List.length_append]
    rfl

/-- A call of the closure keeps the counters: no symbol is too short to count. -/
theorem Measured.moved {n : UInt64} {table : List Sealed} {l : Layout} {c c' : Collect rq}
    {dgram : Octets} (hc : Measured n c) (ht : TableOf rq cfg n table)
    (hm : c.Moved (decryptTable table) l cfg.transferTag dgram c') : Measured n c' := by
  cases hm with
  | rejected => exact hc
  | short hopen hlen =>
    obtain ⟨w, hplane, hw⟩ := hc.window
    rw [hplane] at hopen
    obtain ⟨_, p, _, _, _, _, _, rfl⟩ := open_symbol ht hw hopen
    have := p.length_payload
    omega
  | outOfRange hopen hpkts | late hopen hpkts => exact hc.opened ht hopen hpkts rfl
  | fed f | writeFailed f | stored f => exact hc.opened ht f.opens f.counted rfl

theorem Measured.symbol {n : UInt64} {table : List Sealed} {l : Layout} {c : Collect rq}
    {dgram : Octets} {out : Option Octets} (hc : Measured n c) (ht : TableOf rq cfg n table)
    (f : Collect.Feed (decryptTable table) l cfg.transferTag c dgram out) :
    SymbolOf rq cfg f.b f.packet := by
  obtain ⟨w, hplane, hw⟩ := hc.window
  have hopen := f.opens
  rw [hplane] at hopen
  obtain ⟨_, p, _, _, _, _, hp, hpayload⟩ := open_symbol ht hw hopen
  have hdes := f.deserialized
  rw [hpayload, EncodingPacket.deserialize_payload] at hdes
  cases hdes
  exact hp

/-! ## Reports -/

/-- A Progress frame. -/
def Frame.isProgress : Frame → Bool
  | .progress .. => true
  | _ => false

/-- A report made with at most `n` packets sent: it counts what was opened,
and its span is one past the highest number opened. -/
structure Report.Exact (n : UInt64) (r : Report) (pkts span : UInt64) : Prop where
  frame : ∃ tMs, r.frame = .progress pkts (some span) tMs
  pos : 0 < pkts
  count : pkts.toNat = r.opened.length
  once : (r.opened.map wireSeq).Nodup
  below : ∀ d ∈ r.opened, wireSeq d < span
  top : ∃ d ∈ r.opened, (wireSeq d).toNat + 1 = span.toNat
  sent : span ≤ n

/-- The numbers below the span that were not accepted before the report. -/
def Report.missing (r : Report) (span : UInt64) : Finset Nat :=
  (Finset.range span.toNat).filter fun q => q ∉ r.opened.map fun d => (wireSeq d).toNat

/-- What is missing is the span less what was counted. -/
theorem Report.Exact.missing_card {n pkts span : UInt64} {r : Report} (h : r.Exact n pkts span) :
    (r.missing span).card = span.toNat - pkts.toNat ∧ pkts ≤ span := by
  let acc := r.opened.map fun d => (wireSeq d).toNat
  have hnodup : acc.Nodup := by
    have := h.once.map_on fun a _ b _ => UInt64.toNat.inj
    rwa [List.map_map] at this
  have hcard : acc.toFinset.card = pkts.toNat := by
    rw [List.toFinset_card_of_nodup hnodup, List.length_map, h.count]
  have hsub : acc.toFinset ⊆ Finset.range span.toNat := by
    intro q hq
    obtain ⟨d, hd, rfl⟩ := List.mem_map.mp (List.mem_toFinset.mp hq)
    exact Finset.mem_range.mpr (UInt64.lt_iff_toNat_lt.mp (h.below d hd))
  have hmissing : r.missing span = Finset.range span.toNat \ acc.toFinset := by
    ext q
    simp [Report.missing, acc]
  refine ⟨?_, UInt64.le_iff_toNat_le.mpr ?_⟩
  · rw [hmissing, Finset.card_sdiff_of_subset hsub, hcard, Finset.card_range]
  · have := Finset.card_le_card hsub
    rwa [hcard, Finset.card_range] at this

theorem Report.Exact.le {n pkts span pkts' span' : UInt64} {r r' : Report}
    (h : r.Exact n pkts span) (h' : r'.Exact n pkts' span') (hpre : r.opened <+: r'.opened) :
    pkts ≤ pkts' ∧ span ≤ span' := by
  obtain ⟨d, hd, htop⟩ := h.top
  have hlt := UInt64.lt_iff_toNat_lt.mp (h'.below d (hpre.subset hd))
  have hlen := hpre.length_le
  rw [← h.count, ← h'.count] at hlen
  exact ⟨UInt64.le_iff_toNat_le.mpr hlen, UInt64.le_iff_toNat_le.mpr (by omega)⟩

theorem Measured.report {n tMs : UInt64} {c : Collect rq} (hc : Measured n c) {f : Frame}
    (hf : c.report tMs = .ok (some f)) :
    ∃ span, Report.Exact n ⟨f, c.opened⟩ c.pkts span ∧ f.isProgress = true := by
  obtain ⟨hpos, span, hspan, rfl⟩ := Collect.report_eq_some hf
  obtain ⟨w, hplane, hw⟩ := hc.window
  have hne : c.opened.map wireSeq ≠ [] := by
    intro he
    have hlen : c.opened.length = 0 := by simpa using he
    have := UInt64.lt_iff_toNat_lt.mp hpos
    rw [hc.pkts, hlen] at this
    cases this
  rw [hplane] at hspan
  obtain ⟨q, rfl, ⟨s, hs, htop⟩, hbelow⟩ := hw.seqSpan hne hspan
  obtain ⟨d, hd, rfl⟩ := List.mem_map.mp hs
  refine ⟨q, ⟨⟨tMs, rfl⟩, hpos, hc.pkts, hc.once, fun d hd => hbelow _ (List.mem_map_of_mem hd),
    ⟨d, hd, htop⟩, ?_⟩, rfl⟩
  have := UInt64.lt_iff_toNat_lt.mp (hc.sent d hd)
  exact UInt64.le_iff_toNat_le.mpr (by omega)

/-- The reports of a transfer: the Progress frames written, each exact, each
about what the receiver has opened by then. -/
structure ReportInv (n : UInt64) (s : RecvState rq) : Prop where
  frames : s.wrote.filter Frame.isProgress = s.reports.map Report.frame
  exact : ∀ r ∈ s.reports, ∃ pkts span, r.Exact n pkts span
  seen : ∀ r ∈ s.reports, ∃ x, s.live = some x ∧ r.opened <+: x.col.opened
  order : s.reports.Pairwise fun r r' => r.opened <+: r'.opened

theorem reportInv_init (n : UInt64) : ReportInv n (RecvState.init rq) where
  frames := rfl
  exact r h := by cases h
  seen r h := by cases h
  order := .nil

theorem Collect.Moved.opened {dec : Decrypt} {l : Layout} {tag : UInt64} {c c' : Collect rq}
    {dgram : Octets} (hm : c.Moved dec l tag dgram c') : c.opened <+: c'.opened := by
  cases hm with
  | rejected => exact List.prefix_refl _
  | short | outOfRange | late | fed | writeFailed | stored => exact List.prefix_append _ _

section

variable {sha : Sha256} {plane : RxPlane} {dec : Decrypt}

theorem LiveStep.opened {s s' : RecvState rq} (h : LiveStep plane dec s s')
    (he : s.pc.early = true → s.live = none) {x : Live rq} (hx : s.live = some x) :
    ∃ x', s'.live = some x' ∧ x.col.opened <+: x'.col.opened := by
  cases h with
  | same h => exact ⟨x, by rw [h, hx], List.prefix_refl _⟩
  | create hpc h =>
    rw [he (by rw [hpc]; rfl)] at hx
    cases hx
  | moved hx' hm h =>
    cases hx.symm.trans hx'
    exact ⟨_, h, hm.opened⟩
  | acked hx' _ h | ticked hx' h =>
    cases hx.symm.trans hx'
    exact ⟨_, h, List.prefix_refl _⟩

/-- Only a tick writes Progress, and it is reported. -/
theorem RecvStep.reports {s s' : RecvState rq} {a : Act Frame}
    (h : RecvStep sha plane dec s a s') :
    (s'.reports = s.reports ∧
      s'.wrote.filter Frame.isProgress = s.wrote.filter Frame.isProgress) ∨
    ∃ x tMs f, s.live = some x ∧ x.col.report tMs = .ok (some f) ∧
      s'.reports = s.reports ++ [⟨f, x.col.opened⟩] ∧ s'.wrote = s.wrote ++ [f] := by
  cases h with
  | tick h hx hd tMs hf =>
    exact .inr ⟨_, tMs, _, hx, (Collect.onTick_eq_ok.mp hf).1, rfl, rfl⟩
  | reject | helloAck | manifestAck | ack | done =>
    exact .inl ⟨rfl, by simp [RecvState.wroteTo, RecvState.setCol, Frame.isProgress]⟩
  | _ => exact .inl ⟨rfl, rfl⟩

theorem RecvStep.reportInv {s s' : RecvState rq} {a : Act Frame} {n : UInt64}
    (h : RecvStep sha plane dec s a s') (hi : ReportInv n s)
    (he : s.pc.early = true → s.live = none)
    (hm : ∀ x, s.live = some x → Measured n x.col) : ReportInv n s' := by
  have hseen : ∀ r ∈ s.reports, ∃ x, s'.live = some x ∧ r.opened <+: x.col.opened := by
    intro r hr
    obtain ⟨x, hx, hpre⟩ := hi.seen r hr
    obtain ⟨x', hx', hpre'⟩ := h.live.opened he hx
    exact ⟨x', hx', hpre.trans hpre'⟩
  rcases h.reports with ⟨hr, hw⟩ | ⟨x, tMs, f, hx, hf, hr, hw⟩
  · exact ⟨by rw [hr, hw, hi.frames], by rw [hr]; exact hi.exact, by rw [hr]; exact hseen,
      by rw [hr]; exact hi.order⟩
  · obtain ⟨span, hexact, hprog⟩ := (hm x hx).report hf
    refine ⟨?_, fun r hmem => ?_, fun r hmem => ?_, ?_⟩
    · rw [hr, hw, List.filter_append, hi.frames, List.map_append]
      simp [hprog]
    · rw [hr] at hmem
      rcases List.mem_append.mp hmem with hmem | hmem
      · exact hi.exact r hmem
      · rw [List.mem_singleton.mp hmem]
        exact ⟨_, span, hexact⟩
    · rw [hr] at hmem
      rcases List.mem_append.mp hmem with hmem | hmem
      · exact hseen r hmem
      · rw [List.mem_singleton.mp hmem]
        exact h.live.opened he hx
    · rw [hr, List.pairwise_append]
      refine ⟨hi.order, List.pairwise_singleton _ _, fun r hmem r' hmem' => ?_⟩
      obtain ⟨y, hy, hpre⟩ := hi.seen r hmem
      cases hx.symm.trans hy
      rw [List.mem_singleton.mp hmem']
      exact hpre

end

theorem ReportInv.mono {n n' : UInt64} {s : RecvState rq} (hi : ReportInv n s) (h : n ≤ n') :
    ReportInv n' s := by
  refine { hi with exact := fun r hr => ?_ }
  obtain ⟨pkts, span, he⟩ := hi.exact r hr
  exact ⟨pkts, span, { he with sent := UInt64.le_trans he.sent h }⟩

namespace Session

/-! ## The sealed session -/

/-- What holds, with the rest, in every state of a sealed session under the
ideal AEAD. -/
structure SealedInv (S : Session) (s : Sys rq) : Prop where
  synced : s.snd.v.Synced
  symbols : SymbolInv S.cfg s.snd
  table : TableOf rq S.cfg s.snd.v.packetsSent s.table
  measured : ∀ x, s.rcv.live = some x → Measured s.snd.v.packetsSent x.col
  fed : ∀ x, s.rcv.live = some x → x.col.Fed x.layout (SymbolOf rq S.cfg)
  reports : ReportInv s.snd.v.packetsSent s.rcv

theorem sealedInv_start (rq : Raptorq) {S : Session} (hp : S.cfg.plane = .sealed .new) :
    S.SealedInv (S.start rq) where
  synced := hp
  symbols := symbolInv_init S.cfg
  table e h := by cases h
  measured x h := by cases h
  fed x h := by cases h
  reports := reportInv_init _

theorem sealedInv_send {S : Session} {s : Sys rq} (hi : S.SealedInv s) {a : Act Frame}
    {e : Option Sealed} {snd : SendState rq} (h : SendStep S.enc S.cfg s.snd a e snd)
    (i o : Pipe Frame) :
    S.SealedInv { s with snd, toSend := i, toRecv := o, table := s.table ++ e.toList } := by
  obtain ⟨hsync, hle, hrec⟩ := h.sealed hi.symbols hi.synced
  refine ⟨hsync, h.symbolInv hi.symbols, fun x hx => ?_, fun x hx => (hi.measured x hx).mono hle,
    hi.fed, hi.reports.mono hle⟩
  rcases List.mem_append.mp hx with hx | hx
  · obtain ⟨q, hq, hs⟩ := hi.table x hx
    exact ⟨q, UInt64.lt_of_lt_of_le hq hle, hs⟩
  · obtain ⟨hs, hlt⟩ := hrec x (Option.mem_toList.mp hx)
    exact ⟨_, hlt, hs⟩

theorem sealedInv_recv {S : Session} {s : Sys rq} (hp : S.cfg.plane = .sealed .new)
    (hag : Agreed S.cfg s.rcv) (hri : RecvInv S.sha s.rcv) (hi : S.SealedInv s) {a : Act Frame}
    {rcv : RecvState rq} (h : RecvStep S.sha S.rxPlane (decryptTable s.table) s.rcv a rcv)
    (i o : Pipe Frame) : S.SealedInv { s with rcv, toRecv := i, toSend := o } := by
  have hnew : S.rxPlane = .sealed .new := by rw [rxPlane, hp]
  refine { hi with
    measured := ?_, fed := ?_, reports := h.reportInv hi.reports hri.early hi.measured }
  · refine h.live.invariant (fun x => Measured s.snd.v.packetsSent x.col) hi.measured ?_ ?_ ?_ ?_
    · intro t m _
      rw [hnew]
      exact measured_new _ _
    · intro x c dgram hx hm hc
      rw [(hag.live x hx).1] at hm
      exact hc.moved hi.table hm
    · intro x b bs _ hc
      exact ⟨hc.window, hc.once, hc.sent, hc.pkts⟩
    · intro x ticks hc
      exact ⟨hc.window, hc.once, hc.sent, hc.pkts⟩
  · refine h.live.invariant (fun x => x.col.Fed x.layout (SymbolOf rq S.cfg)) hi.fed ?_ ?_ ?_ ?_
    · intro t m _
      exact Collect.fed_new rq _ _ _
    · intro x c dgram hx hm hf
      rw [(hag.live x hx).1] at hm
      exact hm.fed_inv hf fun f => (hi.measured x hx).symbol hi.table f
    · intro x b bs _ hf
      exact ⟨hf.pending, hf.writes⟩
    · intro x ticks hf
      exact ⟨hf.pending, hf.writes⟩

theorem Reachable.sealedInv {S : Session} (hp : S.cfg.plane = .sealed .new)
    (ha : S.aead = decryptTable) {s : Sys rq} (h : S.Reachable s) : S.SealedInv s := by
  refine Runs.Reachable.invariant_of h (fun _ hs => Reachable.inv hs) S.SealedInv ?_
    fun s t hs _ hi hst => ?_
  · intro s he
    subst he
    exact sealedInv_start rq hp
  · cases hst with
    | send h hio => exact sealedInv_send hi h _ _
    | recv h hio =>
      rw [ha] at h
      exact sealedInv_recv hp hs.agreed hs.recv hi h _ _
    | cutToRecv n => exact ⟨hi.synced, hi.symbols, hi.table, hi.measured, hi.fed, hi.reports⟩
    | cutToSend n => exact ⟨hi.synced, hi.symbols, hi.table, hi.measured, hi.fed, hi.reports⟩

/-- **Exact loss on the wire.** In every state of every interleaving of a
sealed session under the ideal AEAD, whatever the UDP path does: the sealer's
counter is the number of packets sent; the Progress frames written are those
of the ticks; each carries a packet count and a span with `1 ≤ pkts ≤ span ≤
packets_sent`, and `span - pkts` numbers below the span that were not accepted
before it; and neither goes down from one Progress frame to a later one. -/
theorem wire_loss_exact (S : Session) (hp : S.cfg.plane = .sealed .new)
    (ha : S.aead = decryptTable) {s : Sys rq} (h : S.Reachable s) :
    s.snd.v.plane = .sealed ⟨s.snd.v.packetsSent⟩ ∧
    s.rcv.wrote.filter Frame.isProgress = s.rcv.reports.map Report.frame ∧
    (∀ r ∈ s.rcv.reports, ∃ pkts span tMs, r.frame = .progress pkts (some span) tMs ∧
      1 ≤ pkts ∧ pkts ≤ span ∧ span ≤ s.snd.v.packetsSent ∧
      span.toNat - pkts.toNat = (r.missing span).card) ∧
    s.rcv.wrote.Pairwise fun f g => ∀ p q t p' q' t', f = .progress p (some q) t →
      g = .progress p' (some q') t' → p ≤ p' ∧ q ≤ q' := by
  have hi := h.sealedInv hp ha
  refine ⟨hi.synced, hi.reports.frames, fun r hr => ?_, ?_⟩
  · obtain ⟨pkts, span, he⟩ := hi.reports.exact r hr
    obtain ⟨tMs, hf⟩ := he.frame
    obtain ⟨hcard, hle⟩ := he.missing_card
    refine ⟨pkts, span, tMs, hf, ?_, hle, he.sent, hcard.symm⟩
    exact UInt64.le_iff_toNat_le.mpr (UInt64.lt_iff_toNat_lt.mp he.pos)
  · have horder : (s.rcv.wrote.filter Frame.isProgress).Pairwise fun f g =>
        ∀ p q t p' q' t', f = .progress p (some q) t → g = .progress p' (some q') t' →
          p ≤ p' ∧ q ≤ q' := by
      rw [hi.reports.frames, List.pairwise_map]
      refine hi.reports.order.imp_of_mem fun {r r'} hr hr' hpre => ?_
      intro p q t p' q' t' hf hg
      obtain ⟨pkts, span, he⟩ := hi.reports.exact r hr
      obtain ⟨pkts', span', he'⟩ := hi.reports.exact r' hr'
      obtain ⟨_, hf'⟩ := he.frame
      obtain ⟨_, hg'⟩ := he'.frame
      cases hf.symm.trans hf'
      cases hg.symm.trans hg'
      exact he.le he' hpre
    refine (List.pairwise_filter.mp horder).imp fun {f g} hfg p q t p' q' t' hf hg => ?_
    exact hfg (by rw [hf]; rfl) (by rw [hg]; rfl) p q t p' q' t' hf hg

/-- A tick after the last of the tiny file's packets: one counted, two missing. -/
theorem wire_loss_tiny : ∃ s : Sys .repetition, tiny.Reachable s ∧
    ∃ r ∈ s.rcv.reports, r.frame = .progress 1 (some 3) 5 ∧ (r.missing 3).card = 2 := by
  obtain ⟨s, h, hr⟩ := tiny_ticked
  obtain ⟨-, -, hexact, -⟩ := wire_loss_exact tiny rfl rfl h
  obtain ⟨r, hmem, hf⟩ : ∃ r ∈ s.rcv.reports, r.frame = .progress 1 (some 3) 5 :=
    List.mem_map.mp (by rw [hr]; exact List.mem_singleton.mpr rfl)
  obtain ⟨pkts, span, tMs, hf', -, -, -, hcard⟩ := hexact r hmem
  cases hf.symm.trans hf'
  exact ⟨s, h, r, hmem, hf, hcard.symm⟩

end Session

end AtpExperiment
