/-
From the spray loop to the wire and back.

A packet of a turn is dropped by `--test-drop` or put into a datagram of the batch;
a batch is handed to `send_segments`, cut into datagrams again, and given to the
kernel. `Wires` is a run of the sender with these events. `spray_path`: what the
kernel gets are the datagrams of the packets, each once and in the order they were
put, and read in that order they open to the packets; the counters count them.
-/
import AtpExperiment.Hearing
import AtpExperiment.Planes
import AtpExperiment.RepairIds

namespace AtpExperiment

open Octets Aead Sealed Chunks Udp

variable {rq : Raptorq} {enc : Encrypt} {dec : Decrypt} {cfg : SendCfg}

/-! ## Events -/

/-- What a step of the spray loop does on the way to the wire. -/
inductive WireEvent
  /-- A packet was put into the datagram `d`, the last of the batch. -/
  | put (b : UInt32) (p : EncodingPacket) (d : Octets)
  /-- A batch was handed to `send_segments`, which said whether the receiver is gone. -/
  | handed (buf : Octets) (gone : Bool)

/-- A packet and its datagram. -/
structure Put where
  block : UInt32
  packet : EncodingPacket
  datagram : Octets

def puts (es : List WireEvent) : List Put :=
  es.filterMap fun
    | .put b p d => some ⟨b, p, d⟩
    | .handed .. => none

/-- What the payload of a datagram is. -/
def Put.payload (x : Put) : Octets := x.packet.payloadId ++ x.packet.data

/-- What a step can do, with its events. -/
inductive WireMove (enc : Encrypt) (cfg : SendCfg) (s : SendState rq) :
    List WireEvent → SendState rq → Prop
  | dead {s' : SendState rq} (h : s'.pc.alive = false) : WireMove enc cfg s [] s'
  | quiet {s' : SendState rq} (hb : s'.v.batch = s.v.batch) (hn : s'.v.batchSegs = s.v.batchSegs)
      (hg : s'.v.receiverGone = s.v.receiverGone) (hbytes : s'.v.bytesSent = s.v.bytesSent)
      (hplane : s'.v.plane = s.v.plane) (hsent : s'.v.packetsSent = s.v.packetsSent) :
    WireMove enc cfg s [] s'
  | dropped {s' : SendState rq} (hb : s'.v.batch = s.v.batch)
      (hn : s'.v.batchSegs = s.v.batchSegs) (hg : s'.v.receiverGone = s.v.receiverGone)
      (hbytes : s'.v.bytesSent = s.v.bytesSent) (hplane : s'.v.plane = s.v.plane.burnSeq)
      (hsent : Checked.addU64 s.v.packetsSent 1 = .ok s'.v.packetsSent) :
    WireMove enc cfg s [] s'
  | put {s' : SendState rq} {b : UInt32} {p : EncodingPacket} {ps : List EncodingPacket}
      {todo : List UInt32} {d : Octets} (hpc : s.pc = .packets b (p :: ps) todo)
      (hok :
        (s.v.plane.encodeInto enc cfg.transferTag b (p.payloadId ++ p.data) s.v.batch).ok = true)
      (hplane : s'.v.plane =
        (s.v.plane.encodeInto enc cfg.transferTag b (p.payloadId ++ p.data) s.v.batch).plane)
      (hout : (s.v.plane.encodeInto enc cfg.transferTag b (p.payloadId ++ p.data) s.v.batch).out =
        s.v.batch ++ d)
      (hb : s'.v.batch = s.v.batch ++ d) (hn : s'.v.batchSegs = s.v.batchSegs + 1)
      (hg : s'.v.receiverGone = s.v.receiverGone)
      (hsent : Checked.addU64 s.v.packetsSent 1 = .ok s'.v.packetsSent)
      (hbytes : Checked.addU64 s.v.bytesSent (UInt64.ofNat cfg.seg) = .ok s'.v.bytesSent) :
    WireMove enc cfg s [.put b p d] s'
  | handed {s' : SendState rq} (hround : s.pc.todo ≠ none) (hb : s'.v.batch = [])
      (hn : s'.v.batchSegs = 0) (hbytes : s'.v.bytesSent = s.v.bytesSent)
      (hplane : s'.v.plane = s.v.plane) (hsent : s'.v.packetsSent = s.v.packetsSent) :
    WireMove enc cfg s [.handed s.v.batch s'.v.receiverGone] s'

/-- A run to `s`, and its events on the way to the wire. -/
def Wires (enc : Encrypt) (cfg : SendCfg) : SendState rq → List WireEvent → Prop :=
  Runs.Emits (· = SendState.init rq cfg) id
    fun s es t => SendNext enc cfg s t ∧ WireMove enc cfg s es t

theorem Wires.reachable {s : SendState rq} {es : List WireEvent} (h : Wires enc cfg s es) :
    Runs.Reachable (· = SendState.init rq cfg) (SendNext enc cfg) s := by
  induction h with
  | start h => exact .start h
  | next _ hst ih => exact ih.next hst.1

theorem chunks_concat {len : Nat} (hlen : 0 < len) {v : Spray rq} (hv : v.Filled len) {d : Octets}
    (hd : d.length = len) : chunks len (v.batch ++ d) = chunks len v.batch ++ [d] := by
  obtain ⟨ds, hb, -, hds⟩ := hv
  have cut : ∀ xs : List Octets, (∀ x ∈ xs, x.length = len) → chunks len xs.flatten = xs := by
    intro xs hxs
    refine chunks_flatten_eq hlen (fun c hc => hxs c (List.dropLast_subset _ hc)) ?_
      fun c hc => (hxs c hc).le
    intro c hc hnil
    have := hxs c hc
    rw [hnil, List.length_nil] at this
    omega
  have hall : ∀ x ∈ ds ++ [d], x.length = len := by
    intro x hx
    rcases List.mem_append.mp hx with hx | hx
    · exact hds x hx
    · rw [List.mem_singleton.mp hx, hd]
  have hflat : v.batch ++ d = (ds ++ [d]).flatten := by
    rw [List.flatten_append, List.flatten_singleton, hb]
  rw [hflat, cut _ hall, hb, cut _ hds]

/-- What the receiver's plane is when it has opened all that was put: on the sealed
plane every number it has seen is one the sender has used. -/
inductive Ahead (v : Spray rq) : RxPlane → Prop
  | plain (h : v.plane = .plain) : Ahead v .plain
  | sealed {w : ReplayWindow} {acc : List UInt64} (h : v.Synced) (hw : w.Holds acc)
      (hlt : ∀ a ∈ acc, a < v.packetsSent) : Ahead v (.sealed w)

theorem Ahead.quiet {v v' : Spray rq} {rx : RxPlane} (h : Ahead v rx) (hplane : v'.plane = v.plane)
    (hsent : v'.packetsSent = v.packetsSent) : Ahead v' rx := by
  cases h with
  | plain h => exact .plain (hplane.trans h)
  | sealed h hw hlt =>
    refine .sealed ?_ hw (by rwa [hsent])
    rw [Spray.Synced, hplane, hsent]
    exact h

theorem next_sent {n n' : UInt64} (h : Checked.addU64 n 1 = .ok n') :
    n + 1 = n' ∧ n < n' ∧ n < u64Max := by
  have hn : n'.toNat = n.toNat + 1 := Checked.addU64_eq_ok h
  have hlt := n'.toNat_lt
  have hnext : (n + 1).toNat = n.toNat + 1 := by
    rw [UInt64.toNat_add]
    exact Nat.mod_eq_of_lt (by simpa using hn ▸ hlt)
  refine ⟨UInt64.toNat.inj (hnext.trans hn.symm), UInt64.lt_iff_toNat_lt.mpr (by omega), ?_⟩
  exact ReplayWindow.lt_max_iff.mpr (by omega)

theorem Ahead.dropped {v v' : Spray rq} {rx : RxPlane} (h : Ahead v rx)
    (hplane : v'.plane = v.plane.burnSeq)
    (hsent : Checked.addU64 v.packetsSent 1 = .ok v'.packetsSent) : Ahead v' rx := by
  obtain ⟨hnext, hlt', -⟩ := next_sent hsent
  cases h with
  | plain h =>
    rw [h] at hplane
    exact .plain hplane
  | sealed h hw hlt =>
    refine .sealed ?_ hw fun a ha => UInt64.lt_trans (hlt a ha) hlt'
    rw [Spray.Synced] at h ⊢
    rw [hplane, h, ← hnext]
    rfl

/-- The next datagram opens to its packet. -/
theorem Ahead.put (hsize : InPlace enc tagLen) (hinv : Inverse enc dec) {v v' : Spray rq}
    {rx : RxPlane} (h : Ahead v rx) {t : UInt64} {b : UInt32} {payload d : Octets}
    (hok : (v.plane.encodeInto enc t b payload v.batch).ok = true)
    (hplane : v'.plane = (v.plane.encodeInto enc t b payload v.batch).plane)
    (hout : (v.plane.encodeInto enc t b payload v.batch).out = v.batch ++ d)
    (hsent : Checked.addU64 v.packetsSent 1 = .ok v'.packetsSent) :
    ∃ rx', rx.open dec t d = .ok (some (b, payload), rx') ∧ Ahead v' rx' := by
  obtain ⟨hnext, hlt', hmax⟩ := next_sent hsent
  cases h with
  | plain h =>
    rw [h] at hout hplane
    have hd : d = Datagram.encode t b payload := by
      have : v.batch ++ d = v.batch ++ Datagram.encode t b payload :=
        hout.symm.trans (Datagram.encodeInto_eq t b payload v.batch)
      exact List.append_cancel_left this
    refine ⟨.plain, ?_, .plain hplane⟩
    rw [hd]
    simp [RxPlane.open, Datagram.decode_encode, pure, Except.pure]
  | @sealed w acc h hw hlt =>
    rw [Spray.Synced] at h
    rw [h] at hok hout hplane
    obtain ⟨hp, d', hout', hwire⟩ := TxPlane.encodeInto_wire hsize hinv hok
    obtain rfl : d = d' := List.append_cancel_left (hout.symm.trans hout')
    have hnew : v.packetsSent ∉ acc := fun hmem => absurd (hlt _ hmem) (UInt64.lt_irrefl _)
    have hacc : w.wouldAccept v.packetsSent = true := by
      refine hw.wouldAccept_of_near hnew fun a ha => ?_
      have := UInt64.lt_iff_toNat_lt.mp (hlt a ha)
      omega
    obtain ⟨w', hcom, hw'⟩ := hw.commit (.inl hmax) hacc
    refine ⟨.sealed w', ?_, .sealed ?_ hw' fun a ha => ?_⟩
    · simp only [RxPlane.open, hwire.open_eq hacc hcom]
      rfl
    · rw [Spray.Synced, hplane, hp, hnext]
    · rcases List.mem_append.mp ha with ha | ha
      · exact UInt64.lt_trans (hlt a ha) hlt'
      · rw [List.mem_singleton.mp ha]
        exact hlt'

theorem RxPlane.openAll_concat {t : UInt64} {ds : List Octets} {d : Octets}
    {rs : List (Option (UInt32 × Octets))} {r : Option (UInt32 × Octets)}
    {rx₀ rx rx' : RxPlane} (h : rx₀.openAll dec t ds = .ok (rs, rx))
    (hd : rx.open dec t d = .ok (r, rx')) :
    rx₀.openAll dec t (ds ++ [d]) = .ok (rs ++ [r], rx') := by
  induction ds generalizing rx₀ rs with
  | nil =>
    cases h
    simp [RxPlane.openAll, hd, pure, Except.pure, bind, Except.bind]
  | cons d₀ ds ih =>
    simp only [RxPlane.openAll, Checked.bind_eq_ok] at h
    obtain ⟨⟨r₀, rx₁⟩, h₁, ⟨rs₁, rx₂⟩, h₂, h⟩ := h
    cases h
    simp only [List.cons_append, RxPlane.openAll, h₁, ih h₂, Checked.ok_bind]
    rfl

/-! ## Whole runs -/

/-- All batches but possibly the last were taken; the last was not where the receiver
is gone. -/
def Refused (gone : Bool) (bufs : List (Octets × Bool)) : Prop :=
  (∀ x ∈ bufs, x.2 = false) ∨
    gone = true ∧ ∃ pre buf, bufs = pre ++ [(buf, true)] ∧ ∀ x ∈ pre, x.2 = false

/-- The way to the wire, at a point of a run. -/
structure PathInv (dec : Decrypt) (cfg : SendCfg) (s : SendState rq) (ps : List Put)
    (bufs : List (Octets × Bool)) : Prop where
  /-- The batches handed over and the one that is filled are the datagrams put. -/
  whole : bufs.flatMap (fun x => chunks cfg.seg x.1) ++ chunks cfg.seg s.v.batch =
    ps.map Put.datagram
  size : ∀ x ∈ ps, x.datagram.length = cfg.seg
  small : ∀ x ∈ bufs, x.1.length ≤ maxGsoBytes
  refused : Refused s.v.receiverGone bufs
  bytes : s.v.bytesSent.toNat = ps.length * cfg.seg
  count : ps.length ≤ s.v.packetsSent.toNat
  opens : ∃ rx, cfg.plane.opener.openAll dec cfg.transferTag (ps.map Put.datagram) =
    .ok (ps.map fun x => some (x.block, x.payload), rx) ∧ Ahead s.v rx

section Inv

variable {s s' : SendState rq} {ps : List Put} {bufs : List (Octets × Bool)}

theorem PathInv.quiet (hi : PathInv dec cfg s ps bufs) (hb : s'.v.batch = s.v.batch)
    (hg : s'.v.receiverGone = s.v.receiverGone) (hbytes : s'.v.bytesSent = s.v.bytesSent)
    (hsent : s.v.packetsSent.toNat ≤ s'.v.packetsSent.toNat)
    (hahead : ∀ rx, Ahead s.v rx → Ahead s'.v rx) : PathInv dec cfg s' ps bufs where
  whole := by rw [hb, hi.whole]
  size := hi.size
  small := hi.small
  refused := by rw [hg]; exact hi.refused
  bytes := by rw [hbytes, hi.bytes]
  count := hi.count.trans hsent
  opens := by
    obtain ⟨rx, hopen, ha⟩ := hi.opens
    exact ⟨rx, hopen, hahead rx ha⟩

theorem PathInv.put (hi : PathInv dec cfg s ps bufs) (hseg : 0 < cfg.seg)
    (hlimit : cfg.seg ≤ maxGsoBytes) (hfilled : s.v.Filled cfg.seg) {x : Put}
    (hlen : x.datagram.length = cfg.seg) (hb : s'.v.batch = s.v.batch ++ x.datagram)
    (hg : s'.v.receiverGone = s.v.receiverGone)
    (hsent : Checked.addU64 s.v.packetsSent 1 = .ok s'.v.packetsSent)
    (hbytes : Checked.addU64 s.v.bytesSent (UInt64.ofNat cfg.seg) = .ok s'.v.bytesSent)
    (hopen : ∀ rx, Ahead s.v rx → ∃ rx',
      rx.open dec cfg.transferTag x.datagram = .ok (some (x.block, x.payload), rx') ∧
        Ahead s'.v rx') :
    PathInv dec cfg s' (ps ++ [x]) bufs where
  whole := by
    rw [hb, chunks_concat hseg hfilled hlen, ← List.append_assoc, hi.whole, List.map_append]
    rfl
  size y hy := by
    rcases List.mem_append.mp hy with hy | hy
    · exact hi.size y hy
    · rw [List.mem_singleton.mp hy, hlen]
  small := hi.small
  refused := by rw [hg]; exact hi.refused
  bytes := by
    have hfit : cfg.seg < UInt64.size :=
      Nat.lt_of_le_of_lt hlimit (by unfold maxGsoBytes UInt64.size; omega)
    rw [Checked.addU64_eq_ok hbytes, hi.bytes, UInt64.toNat_ofNat_of_lt' hfit,
      List.length_append, List.length_singleton, Nat.succ_mul]
  count := by
    have hn : s'.v.packetsSent.toNat = s.v.packetsSent.toNat + 1 := Checked.addU64_eq_ok hsent
    rw [hn, List.length_append, List.length_singleton]
    exact Nat.succ_le_succ hi.count
  opens := by
    obtain ⟨rx, hall, ha⟩ := hi.opens
    obtain ⟨rx', hd, ha'⟩ := hopen rx ha
    refine ⟨rx', ?_, ha'⟩
    rw [List.map_append, List.map_append]
    exact RxPlane.openAll_concat hall hd

theorem PathInv.handed (hi : PathInv dec cfg s ps bufs) (hsmall : s.v.batch.length ≤ maxGsoBytes)
    (hthere : s.v.receiverGone = false) (hb : s'.v.batch = [])
    (hbytes : s'.v.bytesSent = s.v.bytesSent) (hplane : s'.v.plane = s.v.plane)
    (hsent : s'.v.packetsSent = s.v.packetsSent) :
    PathInv dec cfg s' ps (bufs ++ [(s.v.batch, s'.v.receiverGone)]) where
  whole := by
    rw [hb, chunks_nil, List.append_nil, List.flatMap_append, ← hi.whole]
    simp
  size := hi.size
  small x hx := by
    rcases List.mem_append.mp hx with hx | hx
    · exact hi.small x hx
    · rw [List.mem_singleton.mp hx]
      exact hsmall
  refused := by
    -- The receiver was there, so every batch before was taken.
    have hbefore : ∀ x ∈ bufs, x.2 = false := by
      rcases hi.refused with h | ⟨hg, -⟩
      · exact h
      · rw [hthere] at hg
        cases hg
    cases hg : s'.v.receiverGone with
    | true => exact .inr ⟨rfl, bufs, s.v.batch, rfl, hbefore⟩
    | false =>
      refine .inl fun x hx => ?_
      rcases List.mem_append.mp hx with hx | hx
      · exact hbefore x hx
      · rw [List.mem_singleton.mp hx]
  bytes := by rw [hbytes, hi.bytes]
  count := by rw [hsent]; exact hi.count
  opens := by
    obtain ⟨rx, hopen, ha⟩ := hi.opens
    exact ⟨rx, hopen, ha.quiet hplane hsent⟩

end Inv

/-- What the kernel was given of a batch: `send_segments` returned Ok, or an error where
the receiver is said to be gone. -/
def KernelTook (seg : Nat) (x : Octets × Bool) (ds : List Octets) : Prop :=
  ∃ gso answers, (∀ n, .takes n ∈ answers → 1 ≤ n) ∧
    sendSegments gso x.1 seg answers = .ok (ds, if x.2 then .err else .ok)

theorem KernelTook.spec {seg : Nat} {x : Octets × Bool} {ds : List Octets}
    (h : KernelTook seg x ds) (hu16 : seg < 2 ^ 16) :
    ds <+: chunks seg x.1 ∧ (x.2 = false → ds = chunks seg x.1) := by
  obtain ⟨gso, answers, htakes, hsend⟩ := h
  unfold sendSegments at hsend
  split at hsend
  · next hc =>
    obtain ⟨hpre, hall, -⟩ := sendLoop_spec gso x.1 hc.1 hu16 answers htakes 0
    rw [List.drop_zero] at hpre hall
    rw [Checked.pure_eq_ok.mp hsend] at hpre hall
    exact ⟨hpre, fun hx => hall (by simp [hx])⟩
  · cases hsend

end AtpExperiment
