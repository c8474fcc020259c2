/-
The receiver's output file: every `write_all_at` call of a run, in order.

`onDatagram_wrote` says what a call of the closure writes. `LogInv` follows for
the collection loop: the file is the writes replayed on zeros, every write
is decoder output at its block's own range, and each Done block has one
successful write, the last to its range. `collection_invariant` puts it
together with the acks, for whole runs of `handle_transfer`.
-/
import AtpExperiment.CollectFacts
import AtpExperiment.Session

namespace AtpExperiment

open Octets Aead Duplex

variable {rq : Raptorq}

/-- A call of `write_all_at`. -/
structure Attempt where
  block : UInt32
  start : Nat
  data : Octets
  outcome : WriteOutcome

namespace Attempt

/-- The bytes that reached the file. -/
def bytes (a : Attempt) : Octets :=
  match a.outcome with
  | .ok => a.data
  | .fail n => a.data.take n

/-- Byte `i` of the file was written. -/
def Touches (a : Attempt) (i : Nat) : Prop := a.start ≤ i ∧ i < a.start + a.bytes.length

theorem length_bytes_le (a : Attempt) : a.bytes.length ≤ a.data.length := by
  unfold bytes
  split
  · exact le_rfl
  · exact List.length_take_le' _ _

/-- The data is what the block's decoder answered, at the block's own range. -/
structure Within (rq : Raptorq) (l : Layout) (a : Attempt) : Prop where
  inRange : a.block < l.numBlocks
  start : a.start = l.start a.block
  length : a.data.length = l.stop a.block - l.start a.block
  decoded : Collect.DecodedFrom rq l (fun _ _ => True) a.block a.data

/-- A write reaches no byte outside its block's range. -/
theorem Within.touches {l : Layout} {a : Attempt} (h : a.Within rq l) {i : Nat}
    (hi : a.Touches i) : l.start a.block ≤ i ∧ i < l.stop a.block := by
  have hle := a.length_bytes_le
  have hlt := Layout.start_lt_stop h.inRange
  have hstart := h.start
  have hlen := h.length
  obtain ⟨h₁, h₂⟩ := hi
  omega

end Attempt

/-- The file after a sequence of writes. -/
def replay (l : Layout) (log : List Attempt) : Octets :=
  log.foldl (fun file a => writeAt file a.start a.bytes) (List.replicate l.fileSize.toNat 0)

theorem replay_append (l : Layout) (log : List Attempt) (a : Attempt) :
    replay l (log ++ [a]) = writeAt (replay l log) a.start a.bytes := by
  simp [replay]

/-! ## One call of the closure -/

namespace Collect

/-- The `write_all_at` call the closure makes on a datagram, if it gets that
far; `w` is what the call does. -/
def writeCall (dec : Decrypt) (l : Layout) (tag : UInt64) (c : Collect rq) (dgram : Octets)
    (w : WriteOutcome) : Option Attempt :=
  match c.decodeCall dec l tag dgram with
  | none => none
  | some (b, packet) =>
    match c.blocks[b.toNat]? with
    | some (.pending slot) =>
      match decoderOf l b slot with
      | .error _ => none
      | .ok d =>
        match rq.decode d packet with
        | .ok (some data, _) =>
          match l.blockLen b, l.range b with
          | .ok len, .ok r => if data.length = len then some ⟨b, r.start, data, w⟩ else none
          | _, _ => none
        | _ => none
    | _ => none

theorem Feed.decodeCall {dec : Decrypt} {l : Layout} {tag : UInt64} {c : Collect rq}
    {dgram : Octets} {out : Option Octets} (f : Feed dec l tag c dgram out) :
    c.decodeCall dec l tag dgram = some (f.b, f.packet) := by
  have hcount : ¬ 2 ^ 64 ≤ c.pkts.toNat + 1 := by
    have h₁ := Checked.addU64_eq_ok f.counted
    have h₂ := f.pkts.toNat_lt
    have h₃ : (1 : UInt64).toNat = 1 := rfl
    omega
  have hguard : ¬ (f.payload.length < 4 ∨ 2 ^ 64 ≤ c.pkts.toNat + 1 ∨ l.numBlocks ≤ f.b) := by
    simp only [not_or, not_lt]
    exact ⟨f.four, hcount, UInt32.not_le.mpr f.inRange⟩
  simp only [Collect.decodeCall, f.opens, if_neg hguard, f.pending, f.decoder, f.deserialized]

theorem Feed.writeCall {dec : Decrypt} {l : Layout} {tag : UInt64} {c : Collect rq}
    {dgram data : Octets} (f : Feed dec l tag c dgram (some data))
    (hlen : data.length = l.stop f.b - l.start f.b) (w : WriteOutcome) :
    c.writeCall dec l tag dgram w = some ⟨f.b, l.start f.b, data, w⟩ := by
  simp only [Collect.writeCall, f.decodeCall, f.pending, f.decoder, f.decodes,
    Layout.blockLen_of_lt f.inRange, Layout.range_of_lt f.inRange, if_pos hlen]

theorem writeCall_eq_some {dec : Decrypt} {l : Layout} {tag : UInt64} {c : Collect rq}
    {dgram : Octets} {w : WriteOutcome} {a : Attempt} (h : c.writeCall dec l tag dgram w = some a) :
    ∃ f : Feed dec l tag c dgram (some a.data),
      a.data.length = l.stop f.b - l.start f.b ∧ a = ⟨f.b, l.start f.b, a.data, w⟩ := by
  unfold writeCall at h
  split at h
  · cases h
  next b packet hcall =>
  split at h
  · next slot hslot =>
    split at h
    · cases h
    next d hd =>
    split at h
    · next data d' hdecode =>
      obtain ⟨⟨plane, hopen⟩, hfour, hcount, hrange, -⟩ := decodeCall_eq_some.mp hcall
      simp only [Layout.blockLen_of_lt hrange, Layout.range_of_lt hrange] at h
      split at h
      · next hlen =>
        cases h
        exact ⟨⟨plane, b, _, c.pkts + 1, slot, d, packet, d', hopen, hfour,
          Checked.addU64_of_lt hcount, hrange, hslot, hd, EncodingPacket.deserialize_payload _,
          hdecode⟩, hlen, rfl⟩
      · cases h
    · cases h
  · cases h

theorem Feed.onDatagram {dec : Decrypt} {l : Layout} {tag : UInt64} {c : Collect rq}
    {dgram data : Octets} (f : Feed dec l tag c dgram (some data)) (w : WriteOutcome) :
    c.onDatagram dec l tag dgram w = f.next.store l f.b data w := by
  simp only [Collect.onDatagram, f.opens, Checked.ok_bind, onPayload, if_neg (not_lt.mpr f.four),
    f.counted, if_neg (UInt32.not_le.mpr f.inRange), onSymbol, f.pending, f.decoder,
    f.deserialized, f.decodes, onDecoded]
  rfl

/-- What a call of the closure does, with its write. -/
inductive Wrote (dec : Decrypt) (l : Layout) (tag : UInt64) (c : Collect rq) (dgram : Octets) :
    Option Attempt → Collect rq → Prop
  | none {c' : Collect rq} (hfile : c'.file = c.file) (herr : c'.ioErr = c.ioErr)
      (hacks : c'.pendingAcks = c.pendingAcks)
      (hdone : ∀ b : UInt32, c'.blocks[b.toNat]? = some .done ↔ c.blocks[b.toNat]? = some .done) :
    Wrote dec l tag c dgram none c'
  | failed {data : Octets} (f : Feed dec l tag c dgram (some data))
      (hlen : data.length = l.stop f.b - l.start f.b) (n : Nat) :
    Wrote dec l tag c dgram (some ⟨f.b, l.start f.b, data, .fail n⟩) { f.next with
      file := writeAt c.file (l.start f.b) (data.take n)
      ioErr := true }
  | stored {data : Octets} (f : Feed dec l tag c dgram (some data))
      (hlen : data.length = l.stop f.b - l.start f.b) {decoded : UInt32} :
    Wrote dec l tag c dgram (some ⟨f.b, l.start f.b, data, .ok⟩) { f.next with
      file := writeAt c.file (l.start f.b) data
      writes := c.writes ++ [⟨f.b, l.start f.b, data⟩]
      blocks := c.blocks.set f.b.toNat .done
      decoded
      pendingAcks := c.pendingAcks ++ [f.b] }

theorem Feed.done_iff {dec : Decrypt} {l : Layout} {tag : UInt64} {c : Collect rq}
    {dgram : Octets} {out : Option Octets} (f : Feed dec l tag c dgram out) (b : UInt32) :
    f.next.blocks[b.toNat]? = some .done ↔ c.blocks[b.toNat]? = some .done := by
  obtain ⟨hlt, hget⟩ := List.getElem?_eq_some_iff.mp f.pending
  simp only [Feed.next, List.getElem?_set]
  split
  · next he => simp [hlt, ← he, hget]
  · rfl

theorem onDatagram_wrote {dec : Decrypt} {l : Layout} {tag : UInt64} {c c' : Collect rq}
    {dgram : Octets} {w : WriteOutcome} (h : c.onDatagram dec l tag dgram w = .ok c') :
    Wrote dec l tag c dgram (c.writeCall dec l tag dgram w) c' := by
  cases hw : c.writeCall dec l tag dgram w with
  | some a =>
    obtain ⟨f, hlen, ha⟩ := writeCall_eq_some hw
    rw [f.onDatagram] at h
    simp only [store, Layout.blockLen_of_lt f.inRange, Layout.range_of_lt f.inRange,
      Checked.ok_bind, hlen, ne_eq, not_true_eq_false, if_false] at h
    rw [ha]
    cases w with
    | fail n =>
      cases h
      exact .failed f hlen n
    | ok =>
      simp only [Checked.bind_eq_ok, Checked.pure_eq_ok] at h
      obtain ⟨decoded, -, rfl⟩ := h
      have hset : f.next.blocks.set f.b.toNat .done = c.blocks.set f.b.toNat .done := by
        simp [Feed.next]
      rw [hset]
      exact .stored f hlen
  | none =>
    -- The two kinds of call that write would show in `writeCall`.
    cases onDatagram_moved h with
    | rejected | short | outOfRange | late => exact .none rfl rfl rfl fun _ => Iff.rfl
    | fed f => exact .none rfl rfl rfl f.done_iff
    | writeFailed f hlen | stored f hlen =>
      rw [f.writeCall hlen] at hw
      cases hw

/-! ## The loop -/

/-- Block `b` was written once: a call succeeded at its range, those before it
that touch the range failed, and none after it touches it. -/
def WrittenOnce (l : Layout) (log : List Attempt) (b : UInt32) : Prop :=
  ∃ pre a post, log = pre ++ a :: post ∧ a.block = b ∧ a.outcome = .ok ∧ a.start = l.start b ∧
    a.data.length = l.stop b - l.start b ∧
    (∀ x ∈ pre, ∀ i, x.Touches i → l.start b ≤ i → i < l.stop b → x.outcome ≠ .ok) ∧
    ∀ x ∈ post, ∀ i, x.Touches i → ¬ (l.start b ≤ i ∧ i < l.stop b)

theorem not_touches_of_ne {l : Layout} {a : Attempt} (h : a.Within rq l) {b : UInt32}
    (hne : a.block ≠ b) {i : Nat} (hi : a.Touches i) : ¬ (l.start b ≤ i ∧ i < l.stop b) := by
  have hin := h.touches hi
  rcases Layout.disjoint (l := l) hne with hd | hd <;> omega

/-- The writes so far and the blocks acked so far, with the locals. -/
structure LogInv (l : Layout) (log : List Attempt) (acked : List UInt32) (c : Collect rq) :
    Prop where
  file : c.file = replay l log
  within : ∀ a ∈ log, a.Within rq l
  stored : ∀ a ∈ log, a.outcome = .ok → c.blocks[a.block.toNat]? = some .done
  once : ∀ b : UInt32, c.blocks[b.toNat]? = some .done → WrittenOnce l log b
  failed : c.ioErr = true ↔ ∃ a ∈ log, a.outcome ≠ .ok
  nodup : (acked ++ c.pendingAcks).Nodup
  acks : ∀ b : UInt32, b ∈ acked ++ c.pendingAcks ↔ c.blocks[b.toNat]? = some .done
  fed : c.Fed l fun _ _ => True

theorem logInv_new (plane : RxPlane) (l : Layout) : (new rq plane l).LogInv l [] [] := by
  have hpending : ∀ b : UInt32, (new rq plane l).blocks[b.toNat]? ≠ some .done := by
    intro b h
    simp only [new, List.getElem?_replicate] at h
    split at h <;> cases h
  refine ⟨rfl, fun a h => ?_, fun a h => ?_, fun b h => absurd h (hpending b), ?_, .nil,
    fun b => ?_, fed_new rq plane l _⟩
  · cases h
  · cases h
  · simp [new]
  · exact iff_of_false (by simp [new]) (hpending b)

/-- One more write, of a block that was pending, leaves those of Done blocks. -/
theorem WrittenOnce.append {l : Layout} {log : List Attempt} {b : UInt32} {a : Attempt}
    (h : WrittenOnce l log b) (ha : a.Within rq l) (hne : a.block ≠ b) :
    WrittenOnce l (log ++ [a]) b := by
  obtain ⟨pre, x, post, rfl, hb, hok, hstart, hlen, hpre, hpost⟩ := h
  refine ⟨pre, x, post ++ [a], by simp, hb, hok, hstart, hlen, hpre, fun y hy => ?_⟩
  rcases List.mem_append.mp hy with hy | hy
  · exact hpost y hy
  · rw [List.mem_singleton.mp hy]
    exact fun i hi => not_touches_of_ne ha hne hi

theorem Feed.within {dec : Decrypt} {l : Layout} {tag : UInt64} {c : Collect rq}
    {dgram data : Octets} (f : Feed dec l tag c dgram (some data)) (hf : c.Fed l fun _ _ => True)
    (hlen : data.length = l.stop f.b - l.start f.b) (w : WriteOutcome) :
    Attempt.Within rq l ⟨f.b, l.start f.b, data, w⟩ :=
  ⟨f.inRange, rfl, hlen, f.d, f.d', f.packet, hf.decoderAfter f, trivial, f.decodes⟩

theorem LogInv.within_append {l : Layout} {log : List Attempt} {acked : List UInt32}
    {c : Collect rq} (hi : c.LogInv l log acked) {a : Attempt} (ha : a.Within rq l) :
    ∀ x ∈ log ++ [a], x.Within rq l := by
  intro x hx
  rcases List.mem_append.mp hx with hx | hx
  · exact hi.within x hx
  · rw [List.mem_singleton.mp hx]
    exact ha

theorem LogInv.write_failed {dec : Decrypt} {l : Layout} {tag : UInt64} {c : Collect rq}
    {dgram data : Octets} {log : List Attempt} {acked : List UInt32} (hi : c.LogInv l log acked)
    (f : Feed dec l tag c dgram (some data)) (hlen : data.length = l.stop f.b - l.start f.b)
    (n : Nat) :
    LogInv l (log ++ [⟨f.b, l.start f.b, data, .fail n⟩]) acked { f.next with
      file := writeAt c.file (l.start f.b) (data.take n)
      ioErr := true } := by
  have ha := f.within hi.fed hlen (.fail n)
  refine ⟨?_, hi.within_append ha, fun a h hok => ?_, fun b hb => ?_, ?_, hi.nodup, fun b => ?_,
    ⟨(hi.fed.next f trivial).pending, hi.fed.writes⟩⟩
  · simp only [replay_append, Attempt.bytes, ← hi.file]
  · rcases List.mem_append.mp h with h | h
    · exact (f.done_iff _).mpr (hi.stored a h hok)
    · rw [List.mem_singleton.mp h] at hok
      cases hok
  · have hb' := (f.done_iff b).mp hb
    exact (hi.once b hb').append ha (f.ne_of_done hb').symm
  · exact iff_of_true rfl ⟨_, List.mem_append_right _ (List.mem_singleton_self _), nofun⟩
  · exact (hi.acks b).trans (f.done_iff b).symm

theorem LogInv.write_stored {dec : Decrypt} {l : Layout} {tag : UInt64} {c : Collect rq}
    {dgram data : Octets} {log : List Attempt} {acked : List UInt32} (hi : c.LogInv l log acked)
    (f : Feed dec l tag c dgram (some data)) (hlen : data.length = l.stop f.b - l.start f.b)
    {c' : Collect rq} (hfile : c'.file = writeAt c.file (l.start f.b) data)
    (hblocks : c'.blocks = c.blocks.set f.b.toNat .done) (herr : c'.ioErr = c.ioErr)
    (hacks : c'.pendingAcks = c.pendingAcks ++ [f.b]) (hfed : c'.Fed l fun _ _ => True) :
    c'.LogInv l (log ++ [⟨f.b, l.start f.b, data, .ok⟩]) acked := by
  have ha := f.within hi.fed hlen .ok
  have hin : f.b.toNat < c.blocks.length := (List.getElem?_eq_some_iff.mp f.pending).1
  have hnot : c.blocks[f.b.toNat]? ≠ some .done := fun h => f.ne_of_done h rfl
  have hself : c'.blocks[f.b.toNat]? = some .done := by rw [hblocks, List.getElem?_set_self hin]
  have hother : ∀ b : UInt32, b ≠ f.b → c'.blocks[b.toNat]? = c.blocks[b.toNat]? := by
    intro b hne
    rw [hblocks, List.getElem?_set_ne fun h => hne (UInt32.toNat.inj h.symm)]
  have hdone : ∀ b : UInt32, c'.blocks[b.toNat]? = some .done ↔
      c.blocks[b.toNat]? = some .done ∨ b = f.b := by
    intro b
    by_cases hb : b = f.b
    · subst hb
      exact iff_of_true hself (.inr rfl)
    · rw [hother b hb, or_iff_left hb]
  refine ⟨?_, hi.within_append ha, fun a h hok => ?_, fun b hb => ?_, ?_, ?_, fun b => ?_, hfed⟩
  · rw [hfile, replay_append, ← hi.file]
    rfl
  · rw [hdone]
    rcases List.mem_append.mp h with h | h
    · exact .inl (hi.stored a h hok)
    · exact .inr (by rw [List.mem_singleton.mp h])
  · rcases (hdone b).mp hb with hb' | rfl
    · exact (hi.once b hb').append ha (f.ne_of_done hb').symm
    · refine ⟨log, _, [], rfl, rfl, rfl, rfl, hlen, fun x hx i hxi h₁ h₂ hok => ?_, fun x hx => ?_⟩
      · -- An earlier success would have made the block Done.
        by_cases hxb : x.block = f.b
        · exact hnot (hxb ▸ hi.stored x hx hok)
        · exact not_touches_of_ne (hi.within x hx) hxb hxi ⟨h₁, h₂⟩
      · cases hx
  · rw [herr, hi.failed]
    simp
  · rw [hacks, ← List.append_assoc]
    refine hi.nodup.append (List.nodup_singleton _) fun b hb hb' => ?_
    rw [List.mem_singleton.mp hb'] at hb
    exact hnot ((hi.acks _).mp hb)
  · rw [hacks, ← List.append_assoc, List.mem_append, hi.acks, List.mem_singleton, hdone]

/-- A call of the closure keeps the log's invariant. -/
theorem LogInv.onDatagram {dec : Decrypt} {l : Layout} {tag : UInt64} {c c' : Collect rq}
    {dgram : Octets} {w : WriteOutcome} {log : List Attempt} {acked : List UInt32}
    (hi : c.LogInv l log acked) (h : c.onDatagram dec l tag dgram w = .ok c') :
    c'.LogInv l (log ++ (c.writeCall dec l tag dgram w).toList) acked := by
  have hfed : c'.Fed l fun _ _ => True := (onDatagram_moved h).fed_inv hi.fed fun _ => trivial
  have hw := onDatagram_wrote h
  cases hcall : c.writeCall dec l tag dgram w with
  | none =>
    rw [hcall] at hw
    cases hw with
    | none hfile herr hacks hdone =>
      rw [Option.toList_none, List.append_nil]
      exact ⟨by rw [hfile, hi.file], hi.within, fun a ha hok => (hdone _).mpr (hi.stored a ha hok),
        fun b hb => hi.once b ((hdone b).mp hb), by rw [herr, hi.failed],
        by rw [hacks]; exact hi.nodup, fun b => by rw [hacks, hi.acks, hdone], hfed⟩
  | some a =>
    rw [hcall] at hw
    cases hw with
    | failed f hlen n => exact hi.write_failed f hlen n
    | stored f hlen => exact hi.write_stored f hlen rfl rfl rfl rfl hfed

theorem LogInv.ack {l : Layout} {c : Collect rq} {log : List Attempt} {acked bs : List UInt32}
    {b : UInt32} (hi : c.LogInv l log acked) (hb : c.pendingAcks = b :: bs) :
    LogInv l log (acked ++ [b]) { c with pendingAcks := bs } := by
  have heq : acked ++ [b] ++ bs = acked ++ c.pendingAcks := by rw [hb]; simp
  refine ⟨hi.file, hi.within, hi.stored, hi.once, hi.failed, ?_, fun b' => ?_,
    ⟨hi.fed.pending, hi.fed.writes⟩⟩
  · rw [heq]
    exact hi.nodup
  · rw [heq]
    exact hi.acks b'

theorem LogInv.ticked {l : Layout} {c : Collect rq} {log : List Attempt} {acked : List UInt32}
    (hi : c.LogInv l log acked) (ticks : UInt32) : LogInv l log acked { c with ticks } :=
  ⟨hi.file, hi.within, hi.stored, hi.once, hi.failed, hi.nodup, hi.acks,
    ⟨hi.fed.pending, hi.fed.writes⟩⟩

end Collect

/-! ## Runs of the receiver -/

/-- The blocks of the BlockDecoded frames, in order. -/
def ackedOf (fs : List Frame) : List UInt32 :=
  fs.filterMap fun f => match f with
    | .blockDecoded b => some b
    | _ => none

theorem ackedOf_append (fs gs : List Frame) : ackedOf (fs ++ gs) = ackedOf fs ++ ackedOf gs :=
  List.filterMap_append

/-- A step of `handle_transfer` under any AEAD, with its write to the file:
only a datagram of a batch makes one. -/
inductive FileStep (sha : Sha256) (plane : RxPlane) :
    RecvState rq → Option Attempt → RecvState rq → Prop
  | datagram {s : RecvState rq} {x : Live rq} {c : Collect rq} (dec : Decrypt) (h : s.pc = .batch)
      (hx : s.live = some x) (dgram : Octets) (w : WriteOutcome)
      (hc : x.col.onDatagram dec x.layout x.transferTag dgram w = .ok c) :
    FileStep sha plane s (x.col.writeCall dec x.layout x.transferTag dgram w) (s.setCol x c)
  | other {s s' : RecvState rq} {dec : Decrypt} {a : Act Frame} (h : RecvStep sha plane dec s a s')
      (hne : s.pc ≠ .batch ∨ s'.pc ≠ .batch) : FileStep sha plane s none s'

theorem RecvStep.fileStep {sha : Sha256} {plane : RxPlane} {dec : Decrypt} {s s' : RecvState rq}
    {a : Act Frame} (h : RecvStep sha plane dec s a s') : ∃ o, FileStep sha plane s o s' := by
  by_cases hb : s.pc = .batch ∧ s'.pc = .batch
  · obtain ⟨hb, hb'⟩ := hb
    cases h with
    | datagram h hx dgram w hc => exact ⟨_, .datagram dec h hx dgram w hc⟩
    | datagramPanic | batchEnd | batchErr => cases hb'
    | readFail h | callFail h => rw [hb] at h; cases h
    | hello h | reject h | bindPush h | bindPull h | helloAck h | manifest h | create h
    | setLenFail h | manifestAck h | batch h | recvFail h | ack h | acked h | tick h | tickQuiet h
    | tickPanic h | leave h | sync h | hash h | done h => cases hb.symm.trans h
  · exact ⟨none, .other h (not_and_or.mp hb)⟩

/-- What a step that is not a datagram can do to the transfer's values and to
the acks. -/
inductive OtherStep (plane : RxPlane) (s s' : RecvState rq) : Prop
  | same (hl : s'.live = s.live) (ha : ackedOf s'.wrote = ackedOf s.wrote)
  | create {t : UInt64} {m : Accepted} (hpc : s.pc = .create t m)
      (hl : s'.live = some ⟨t, m.sha256, m.layout, .new rq plane m.layout⟩)
      (hw : s'.wrote = s.wrote)
  | acked {x : Live rq} {b : UInt32} {bs : List UInt32} (hpc : s.pc = .acks)
      (hx : s.live = some x) (hb : x.col.pendingAcks = b :: bs)
      (hl : s'.live = some { x with col := { x.col with pendingAcks := bs } })
      (ha : ackedOf s'.wrote = ackedOf s.wrote ++ [b])
  | ticked {x : Live rq} {ticks : UInt32} (hpc : s.pc = .collect) (hx : s.live = some x)
      (hl : s'.live = some { x with col := { x.col with ticks } })
      (ha : ackedOf s'.wrote = ackedOf s.wrote)

theorem RecvStep.otherStep {sha : Sha256} {plane : RxPlane} {dec : Decrypt} {s s' : RecvState rq}
    {a : Act Frame} (h : RecvStep sha plane dec s a s') (hne : s.pc ≠ .batch ∨ s'.pc ≠ .batch) :
    OtherStep plane s s' := by
  cases h with
  | create h => exact .create h rfl rfl
  | datagram h => rcases hne with hne | hne <;> exact absurd h hne
  | ack h hx hb => exact .acked h hx hb rfl (ackedOf_append _ _)
  | reject | helloAck | manifestAck | done => exact .same rfl (by simp [RecvState.wroteTo, ackedOf])
  | tick h hx hd tMs hf =>
    obtain ⟨hr, ticks, -, rfl⟩ := Collect.onTick_eq_ok.mp hf
    obtain ⟨-, span, -, rfl⟩ := Collect.report_eq_some hr
    exact .ticked h hx rfl (by simp [RecvState.wroteTo, RecvState.setCol, ackedOf])
  | tickQuiet h hx hd tMs hf =>
    obtain ⟨-, ticks, -, rfl⟩ := Collect.onTick_eq_ok.mp hf
    exact .ticked h hx rfl rfl
  | _ => exact .same rfl rfl

/-- Outside the batches, where no ack waits. -/
def RecvPc.drained : RecvPc → Bool
  | .manifestAck | .collect | .sync | .hash | .report => true
  | _ => false

/-- Where the transfer can be once a write has failed. -/
def RecvPc.broken : RecvPc → Bool
  | .batch | .returned (.error .io) | .panicked => true
  | _ => false

/-- How a step gets to where no ack waits. -/
theorem RecvStep.drained {sha : Sha256} {plane : RxPlane} {dec : Decrypt} {s s' : RecvState rq}
    {a : Act Frame} (h : RecvStep sha plane dec s a s') (hd : s'.pc.drained = true) {x' : Live rq}
    (hx' : s'.live = some x') :
    x'.col.pendingAcks = [] ∨ s.pc.drained = true ∧
      ∃ x, s.live = some x ∧ x'.col.pendingAcks = x.col.pendingAcks := by
  cases h with
  | create h =>
    cases hx'
    exact .inl rfl
  | acked h hx hb =>
    cases hx.symm.trans hx'
    exact .inl hb
  | tick h hx _ _ hf | tickQuiet h hx _ _ hf =>
    obtain ⟨-, ticks, -, rfl⟩ := Collect.onTick_eq_ok.mp hf
    cases hx'
    exact .inr ⟨by rw [h]; rfl, _, hx, rfl⟩
  | manifestAck h | leave h | sync h | hash h => exact .inr ⟨by rw [h]; rfl, _, hx', rfl⟩
  | @hello f =>
    rcases onHello_cases f with ⟨_, _, -, hf⟩ | ⟨_, -, hf⟩ | ⟨_, hf⟩ <;>
      simp [hf, RecvPc.drained] at hd
  | @manifest t f =>
    rcases onManifest_cases t f with ⟨_, _, _, _, _, _, -, -, hf⟩ | ⟨_, hf⟩ | hf <;>
      simp [hf, RecvPc.drained] at hd
  | datagram h => simp [RecvState.setCol, h, RecvPc.drained] at hd
  | @helloAck _ _ ok | @ack _ _ _ ok | @done _ _ ok => cases ok <;> cases hd
  | _ => cases hd

/-- After a failed write only the end of the batch is left to come. -/
theorem RecvStep.broken {sha : Sha256} {plane : RxPlane} {dec : Decrypt} {s s' : RecvState rq}
    {a : Act Frame} (h : RecvStep sha plane dec s a s') {x : Live rq} (hx : s.live = some x)
    (he : x.col.ioErr = true) (hb : s.pc.broken = true) : s'.pc.broken = true := by
  cases h with
  | datagram h => exact hb
  | datagramPanic | batchErr => rfl
  | batchEnd h hx' he' =>
    cases hx.symm.trans hx'
    rw [he] at he'
    cases he'
  | readFail h | callFail h => exact rfl
  | hello h | reject h | bindPush h | bindPull h | helloAck h | manifest h | create h
  | setLenFail h | manifestAck h | batch h | recvFail h | ack h | acked h | tick h | tickQuiet h
  | tickPanic h | leave h | sync h | hash h | done h =>
    rw [h] at hb
    cases hb

/-- The invariant of a run and its writes. -/
structure WriteInv (sha : Sha256) (s : RecvState rq) (log : List Attempt) : Prop where
  recv : RecvInv sha s
  idle : s.live = none → log = [] ∧ ackedOf s.wrote = []
  live : ∀ x, s.live = some x → x.col.LogInv x.layout log (ackedOf s.wrote)
  drained : s.pc.drained = true → ∀ x, s.live = some x → x.col.pendingAcks = []
  broken : ∀ x, s.live = some x → x.col.ioErr = true → s.pc.broken = true
  unacked : ∀ a ∈ log, a.outcome ≠ .ok → a.block ∉ ackedOf s.wrote
  ended : ∀ ok e, .done ok e ∈ s.wrote → ∃ r, s.pc = .returned r
  done : ∀ x pre ok e post, s.live = some x → s.wrote = pre ++ .done ok e :: post →
    x.col.ioErr = false ∧
      ((ackedOf pre).map UInt32.toNat).Perm (List.range x.layout.numBlocks.toNat)

theorem writeInv_init (sha : Sha256) : WriteInv sha (RecvState.init rq) [] where
  recv := recvInv_init sha
  idle _ := ⟨rfl, rfl⟩
  live x h := by cases h
  drained h := by cases h
  broken x h := by cases h
  unacked a h := by cases h
  ended ok e h := by cases h
  done x pre ok e post h := by cases h

theorem WriteInv.datagram {sha : Sha256} {s : RecvState rq} {log : List Attempt} {dec : Decrypt}
    {x : Live rq} {c : Collect rq} {dgram : Octets} {w : WriteOutcome} (hi : WriteInv sha s log)
    (hr : RecvInv sha (s.setCol x c)) (h : s.pc = .batch) (hx : s.live = some x)
    (hc : x.col.onDatagram dec x.layout x.transferTag dgram w = .ok c) :
    WriteInv sha (s.setCol x c)
      (log ++ (x.col.writeCall dec x.layout x.transferTag dgram w).toList) where
  recv := hr
  idle h := by cases h
  live y hy := by
    cases hy
    exact (hi.live x hx).onDatagram hc
  drained hd := by
    rw [show (s.setCol x c).pc = .batch from h] at hd
    cases hd
  broken y _ _ := by rw [show (s.setCol x c).pc = .batch from h]; rfl
  unacked a ha hfail := by
    rcases List.mem_append.mp ha with ha | ha
    · exact hi.unacked a ha hfail
    · -- The block of a write is pending, and a block that was acked is Done.
      obtain ⟨f, -, he⟩ := Collect.writeCall_eq_some (Option.mem_toList.mp ha)
      intro hack
      rw [he] at hack
      exact f.ne_of_done (((hi.live x hx).acks _).mp (List.mem_append_left _ hack)) rfl
  ended ok e he := by
    obtain ⟨r, hr⟩ := hi.ended ok e he
    cases h.symm.trans hr
  done y pre ok e post _ he := by
    obtain ⟨r, hr⟩ := hi.ended ok e (by rw [show s.wrote = _ from he]; simp)
    cases h.symm.trans hr

theorem WriteInv.ioErr {sha : Sha256} {s : RecvState rq} {log : List Attempt}
    (hi : WriteInv sha s log) {a : Attempt} (ha : a ∈ log) (hfail : a.outcome ≠ .ok) :
    ∃ x, s.live = some x ∧ x.col.ioErr = true := by
  cases hl : s.live with
  | none =>
    rw [(hi.idle hl).1] at ha
    cases ha
  | some x => exact ⟨x, rfl, (hi.live x hl).failed.mpr ⟨a, ha, hfail⟩⟩

theorem WriteInv.ioErr_eq_false {sha : Sha256} {s : RecvState rq} {log : List Attempt} {x : Live rq}
    (hi : WriteInv sha s log) (hpc : s.pc.broken = false) (hx : s.live = some x) :
    x.col.ioErr = false := by
  rw [Bool.eq_false_iff]
  intro he
  rw [hi.broken x hx he] at hpc
  cases hpc

/-- Where the loop has been left, the blocks acked are all the blocks. -/
theorem WriteInv.acked_perm {sha : Sha256} {s : RecvState rq} {log : List Attempt} {x : Live rq}
    (hi : WriteInv sha s log) (h : s.pc = .report) (hx : s.live = some x) :
    ((ackedOf s.wrote).map UInt32.toNat).Perm (List.range x.layout.numBlocks.toNat) := by
  have hlog := hi.live x hx
  have hcol := hi.recv.col x hx
  have hnone : x.col.pendingAcks = [] := hi.drained (by rw [h]; rfl) x hx
  obtain ⟨y, hy, hall⟩ := hi.recv.left (by rw [h]; rfl)
  cases hx.symm.trans hy
  have hnodup := hlog.nodup
  have hacks := hlog.acks
  rw [hnone, List.append_nil] at hnodup hacks
  refine (List.perm_ext_iff_of_nodup (hnodup.map fun a b => UInt32.toNat.inj)
    List.nodup_range).mpr fun n => ?_
  rw [List.mem_map, List.mem_range]
  constructor
  · intro hn
    obtain ⟨b, hb, rfl⟩ := hn
    exact UInt32.lt_iff_toNat_lt.mp (hcol.lt_of_done ((hacks b).mp hb))
  · intro hn
    have hto : (UInt32.ofNat n).toNat = n :=
      UInt32.toNat_ofNat_of_lt' (lt_trans hn x.layout.numBlocks.toNat_lt)
    refine ⟨UInt32.ofNat n, (hacks _).mpr (hcol.all_done hall ?_), hto⟩
    rw [UInt32.lt_iff_toNat_lt, hto]
    exact hn

theorem RecvStep.done_frame {sha : Sha256} {plane : RxPlane} {dec : Decrypt} {s s' : RecvState rq}
    {ok ok' : Bool} {e : Option String}
    (h : RecvStep sha plane dec s (.write (.done ok e) ok') s') :
    (∃ r, s'.pc = .returned r) ∧ s'.live = s.live ∧ (s.pc.early = true ∨ s.pc = .report) := by
  cases h with
  | reject h => exact ⟨⟨_, rfl⟩, rfl, .inl (by rw [h]; rfl)⟩
  | done h => cases ok' <;> exact ⟨⟨_, rfl⟩, rfl, .inr h⟩
  | tick h hx hd tMs hf =>
    obtain ⟨-, span, -, he⟩ := Collect.report_eq_some (Collect.onTick_eq_ok.mp hf).1
    cases he

theorem WriteInv.other {sha : Sha256} {plane : RxPlane} {dec : Decrypt} {s s' : RecvState rq}
    {a : Act Frame} {log : List Attempt} (hi : WriteInv sha s log)
    (h : RecvStep sha plane dec s a s') (hne : s.pc ≠ .batch ∨ s'.pc ≠ .batch) :
    WriteInv sha s' log where
  recv := h.inv hi.recv
  idle hl := by
    cases h.otherStep hne with
    | same hl' ha =>
      rw [ha]
      exact hi.idle (by rw [← hl', hl])
    | create _ hl' | acked _ _ _ hl' | ticked _ _ hl' => cases hl.symm.trans hl'
  live x hx := by
    cases h.otherStep hne with
    | same hl ha =>
      rw [ha]
      exact hi.live x (by rw [← hl, hx])
    | create hpc hl hw =>
      cases hx.symm.trans hl
      obtain ⟨hlog, hacks⟩ := hi.idle (hi.recv.early (by rw [hpc]; rfl))
      rw [hw, hlog, hacks]
      exact Collect.logInv_new plane _
    | acked hpc hy hb hl ha =>
      cases hx.symm.trans hl
      rw [ha]
      exact (hi.live _ hy).ack hb
    | ticked hpc hy hl ha =>
      cases hx.symm.trans hl
      rw [ha]
      exact (hi.live _ hy).ticked _
  drained hd x hx := by
    rcases h.drained hd hx with hb | ⟨hp, y, hy, hb⟩
    · exact hb
    · rw [hb, hi.drained hp y hy]
  broken x hx he := by
    cases h.otherStep hne with
    | same hl ha =>
      rw [hl] at hx
      exact h.broken hx he (hi.broken x hx he)
    | create hpc hl hw =>
      cases hx.symm.trans hl
      cases he
    | acked hpc hy _ hl | ticked hpc hy hl =>
      cases hx.symm.trans hl
      have hok := hi.ioErr_eq_false (by rw [hpc]; rfl) hy
      cases hok.symm.trans he
  unacked b hb hfail := by
    obtain ⟨x, hx, he⟩ := hi.ioErr hb hfail
    cases h.otherStep hne with
    | same _ ha | ticked _ _ _ ha =>
      rw [ha]
      exact hi.unacked b hb hfail
    | create hpc hl hw =>
      rw [hw]
      exact hi.unacked b hb hfail
    | acked hpc hy hbs hl ha =>
      have hok := hi.ioErr_eq_false (by rw [hpc]; rfl) hx
      cases hok.symm.trans he
  ended ok e he := by
    rcases h.wrote with ⟨f, ok', rfl, hw⟩ | ⟨-, hw⟩
    · rw [hw, List.mem_append, List.mem_singleton] at he
      rcases he with he | rfl
      · obtain ⟨r, hr⟩ := hi.ended ok e he
        exact absurd hr (h.not_returned r)
      · exact h.done_frame.1
    · obtain ⟨r, hr⟩ := hi.ended ok e (by rwa [hw] at he)
      exact absurd hr (h.not_returned r)
  done x pre ok e post hx he := by
    have hold : .done ok e ∉ s.wrote := by
      intro hmem
      obtain ⟨r, hr⟩ := hi.ended ok e hmem
      exact h.not_returned r hr
    rcases h.wrote with ⟨f, ok', rfl, hw⟩ | ⟨-, hw⟩
    · -- Nothing was written after the Done frame, so it is the last one.
      rw [hw] at he
      rcases List.eq_nil_or_concat post with rfl | ⟨post', g, rfl⟩
      · obtain ⟨rfl, hf⟩ := List.append_inj' he rfl
        cases hf
        obtain ⟨-, hl, hpc | hpc⟩ := h.done_frame
        · rw [hl, hi.recv.early hpc] at hx
          cases hx
        · rw [hl] at hx
          exact ⟨hi.ioErr_eq_false (by rw [hpc]; rfl) hx, hi.acked_perm hpc hx⟩
      · rw [List.concat_eq_append, ← List.cons_append, ← List.append_assoc] at he
        obtain ⟨hs, -⟩ := List.append_inj' he rfl
        exact absurd (by rw [hs]; simp) hold
    · exact absurd (by rw [← hw, he]; simp) hold

/-- `handle_transfer` is in state `s` after a run that made the writes `log`. -/
def Logged (sha : Sha256) (plane : RxPlane) : RecvState rq → List Attempt → Prop :=
  Runs.Emits (· = RecvState.init rq) Option.toList (FileStep sha plane)

theorem Logged.inv {sha : Sha256} {plane : RxPlane} {s : RecvState rq} {log : List Attempt}
    (h : Logged sha plane s log) : WriteInv sha s log := by
  induction h with
  | start h =>
    subst h
    exact writeInv_init sha
  | next _ hst ih =>
    cases hst with
    | datagram dec h hx dgram w hc =>
      have hstep : RecvStep sha plane dec _ .tau _ := .datagram h hx dgram w hc
      exact ih.datagram (hstep.inv ih.recv) h hx hc
    | other h hne =>
      rw [Option.toList_none, List.append_nil]
      exact ih.other h hne

theorem Session.Reachable.logged {S : Session} {s : Sys rq} (h : S.Reachable s) :
    ∃ log, Logged S.sha S.rxPlane s.rcv log := by
  refine Runs.Reachable.invariant h (fun s => ∃ log, Logged S.sha S.rxPlane s.rcv log) ?_ ?_
  · intro s he
    subst he
    exact ⟨[], .start rfl⟩
  · intro s t hs hst
    obtain ⟨log, hlog⟩ := hs
    cases hst with
    | send | cutToRecv | cutToSend => exact ⟨log, hlog⟩
    | recv h hio =>
      obtain ⟨o, ho⟩ := h.fileStep
      exact ⟨log ++ o.toList, hlog.next ho⟩

/-- **The collection loop.** For any control frames, datagrams, ticks and write
outcomes, on either plane and under any AEAD: `decoded` counts the Done blocks;
the BlockDecoded frames written and the acks that wait name every Done block
once and nothing else; the range of a Done block was written successfully once
and not touched again; the file is the writes replayed, and each of them is
what its block's decoder answered, inside the block's range. The BlockDecoded
frames before the verdict's Done frame are a permutation of the blocks. A block
whose write failed is never acked, no Done frame follows, and the batch ends in
the write's error (or in a panic of the closure on one of its datagrams). -/
theorem Logged.collection_invariant {sha : Sha256} {plane : RxPlane} {s : RecvState rq}
    {log : List Attempt} (h : Logged sha plane s log) :
    (∀ x, s.live = some x →
      x.col.decoded.toNat = x.col.blocks.countP Block.isDone ∧
      (ackedOf s.wrote ++ x.col.pendingAcks).Nodup ∧
      (∀ b : UInt32, b ∈ ackedOf s.wrote ++ x.col.pendingAcks ↔
        x.col.blocks[b.toNat]? = some .done) ∧
      (∀ b : UInt32, x.col.blocks[b.toNat]? = some .done → Collect.WrittenOnce x.layout log b) ∧
      x.col.file = replay x.layout log ∧
      ∀ a ∈ log, Collect.DecodedFrom rq x.layout (fun _ _ => True) a.block a.data ∧
        ∀ i, a.Touches i → x.layout.start a.block ≤ i ∧ i < x.layout.stop a.block) ∧
    (s.live = none → log = []) ∧
    (∀ x pre ok e post, s.live = some x → s.wrote = pre ++ .done ok e :: post →
      ((ackedOf pre).map UInt32.toNat).Perm (List.range x.layout.numBlocks.toNat)) ∧
    ∀ a ∈ log, a.outcome ≠ .ok → .blockDecoded a.block ∉ s.wrote ∧
      (∀ ok e, .done ok e ∉ s.wrote) ∧
      (s.pc = .batch ∨ s.pc = .returned (.error .io) ∨ s.pc = .panicked) := by
  have hi := h.inv
  refine ⟨fun x hx => ?_, fun hl => (hi.idle hl).1,
    fun x pre ok e post hx he => (hi.done x pre ok e post hx he).2, fun a ha hfail => ?_⟩
  · have hlog := hi.live x hx
    exact ⟨(hi.recv.col x hx).decoded, hlog.nodup, hlog.acks, hlog.once, hlog.file,
      fun a ha => ⟨(hlog.within a ha).decoded, fun i => (hlog.within a ha).touches⟩⟩
  · obtain ⟨x, hx, herr⟩ := hi.ioErr ha hfail
    refine ⟨fun hack => ?_, fun ok e hdone => ?_, ?_⟩
    · exact hi.unacked a ha hfail (List.mem_filterMap.mpr ⟨_, hack, rfl⟩)
    · obtain ⟨pre, post, he⟩ := List.append_of_mem hdone
      rw [(hi.done x pre ok e post hx he).1] at herr
      cases herr
    · have hb := hi.broken x hx herr
      unfold RecvPc.broken at hb
      split at hb
      · next hpc => exact .inl hpc
      · next hpc => exact .inr (.inl hpc)
      · next hpc => exact .inr (.inr hpc)
      · cases hb

/-- The one block of the tiny file, decoded from two packets and acked. -/
theorem collection_invariant_tiny : ∃ (s : RecvState .repetition) (log : List Attempt) (x : Live _),
    Logged Session.tiny.sha Session.tiny.rxPlane s log ∧ s.pc = .sync ∧ s.live = some x ∧
      ackedOf s.wrote = [0] ∧ Collect.WrittenOnce x.layout log 0 := by
  obtain ⟨v, turns, c, -, -, -, -, hr⟩ := Session.tiny_collected
  obtain ⟨log, h⟩ := hr.logged
  obtain ⟨hlive, -⟩ := Logged.collection_invariant h
  obtain ⟨-, -, hacks, honce, -⟩ := hlive _ rfl
  exact ⟨_, log, _, h, rfl, rfl, rfl, honce 0 ((hacks 0).mp List.mem_cons_self)⟩

end AtpExperiment
