/-
Flow-open datagrams are unambiguous.

In pull mode the sender waits for a flow-open on a public UDP port, and sprays
to wherever the first one comes from (`udp.rs`, `accept_flow`). The flow-open of
a tag is one byte string (`isFlowOpen_iff`), which no stray that is cut to the
64 bytes of the buffer looks like. It has the format of a plaintext datagram of
block `u32::MAX`, an index no layout has, and the sealed format has another
magic; at the receiver it opens to an empty payload at most
(`flow_open_unambiguous`).
-/
import AtpExperiment.CollectFacts
import AtpExperiment.Planes

namespace AtpExperiment

open Octets Aead

/-! ## The bytes of a flow-open -/

namespace Datagram

theorem leBytes_ofNat_fromLe_u32 {bs : Octets} (h : bs.length = 4) :
    leBytes 4 (UInt32.ofNat (fromLe bs)).toNat = bs := by
  have hlt := fromLe_lt bs
  rw [h] at hlt
  have hn : (UInt32.ofNat (fromLe bs)).toNat = fromLe bs := UInt32.toNat_ofNat_of_lt hlt
  rw [hn]
  have := leBytes_fromLe bs
  rwa [h] at this

theorem eq_encode_of_decode {t : UInt64} {buf : Octets} {d : Datagram} (h : decode t buf = some d) :
    buf = encode t d.blockIndex d.payload := by
  unfold decode at h
  split at h
  · cases h
  next hpre =>
  split at h
  · cases h
  next htag =>
  cases h
  simp only [not_or, not_lt, not_not] at hpre htag
  obtain ⟨hlen, hmagic⟩ := hpre
  have hlen' : 16 ≤ buf.length := hlen
  have h8 : (slice buf 4 12).length = 8 := by rw [length_slice]; omega
  have h4 : (slice buf 12 16).length = 4 := by rw [length_slice]; omega
  have hsplit : buf = buf.take 4 ++ slice buf 4 12 ++ slice buf 12 16 ++ buf.drop 16 := by
    simp only [slice]
    conv_lhs => rw [← List.take_append_drop 16 buf]
    rw [show (16 : Nat) = 4 + 8 + 4 from rfl, List.take_add, List.take_add]
  rw [encode, encodeInto, List.nil_append, ← htag, leBytes_ofNat_fromLe h8,
    leBytes_ofNat_fromLe_u32 h4, ← hmagic]
  exact hsplit

/-- The flow-open of a tag is one byte string. -/
theorem isFlowOpen_iff (t : UInt64) (buf : Octets) :
    isFlowOpen t buf = true ↔ buf = flowOpen t := by
  constructor
  · intro h
    cases hd : decode t buf with
    | none => simp [isFlowOpen, hd] at h
    | some d =>
      simp only [isFlowOpen, hd, Option.any_some, Bool.and_eq_true, beq_iff_eq,
        List.isEmpty_iff] at h
      rw [eq_encode_of_decode hd, h.1, h.2, flowOpen]
  · rintro rfl
    simp [isFlowOpen, flowOpen, decode_encode]

theorem length_flowOpen (t : UInt64) : (flowOpen t).length = 16 := length_encode t flowOpenBlock []

theorem take_flowOpen (t : UInt64) : (flowOpen t).take 4 = magic := by
  simp only [flowOpen, encode, encodeInto, List.nil_append, List.append_assoc]
  exact List.take_left' rfl

/-- A datagram for any other block is no flow-open, whatever the tags. -/
theorem encode_ne_flowOpen {b : UInt32} (hb : b ≠ flowOpenBlock) (t t' : UInt64)
    (payload : Octets) : encode t b payload ≠ flowOpen t' := by
  intro he
  have hd := decode_encode t t b payload
  rw [he, flowOpen, decode_encode, if_pos rfl] at hd
  split at hd
  · cases hd
    exact hb rfl
  · cases hd

end Datagram

open Datagram

theorem sealed_ne_flowOpen (t q t' : UInt64) (rest : Octets) :
    header t q ++ rest ≠ flowOpen t' := by
  intro he
  have hmagic : (header t q ++ rest).take 4 = Sealed.magic := by
    simp only [header, List.append_assoc]
    exact List.take_left' rfl
  rw [he, take_flowOpen] at hmagic
  exact absurd hmagic (by decide)

/-! ## Accepting a flow -/

namespace Udp

variable {Addr : Type}

/-- What the socket of the flow acceptor answers when it is polled. -/
inductive FlowAnswer (Addr : Type)
  | wouldBlock
  | fails
  | datagram (bytes : Octets) (src : Addr)

/-- Where `accept_flow` is; `ok` with the address it connects back to. -/
inductive FlowResult (Addr : Type)
  | ok (peer : Addr)
  | err
  | waiting

/-- `recv_flow_open` on a datagram, of which it sees the first 64 bytes. The
socket is an IPv4 one, so `as_socket` gives the source. -/
def recvFlowOpen (tag : UInt64) (dgram : Octets) (src : Addr) : Option Addr :=
  if isFlowOpen tag (dgram.take 64) then some src else none

/-- The loop of `accept_flow`. -/
def acceptFlow (tag : UInt64) : List (FlowAnswer Addr) → FlowResult Addr
  | [] => .waiting
  | .wouldBlock :: as => acceptFlow tag as
  | .fails :: _ => .err
  | .datagram dgram src :: as =>
    match recvFlowOpen tag dgram src with
    | some peer => .ok peer
    | none => acceptFlow tag as

/-- Nothing to read, or a datagram that is not the flow-open of the tag. -/
def FlowAnswer.Stray (tag : UInt64) : FlowAnswer Addr → Prop
  | .wouldBlock => True
  | .fails => False
  | .datagram dgram _ => dgram ≠ flowOpen tag

variable {tag : UInt64} {dgram : Octets} {src : Addr}

theorem recvFlowOpen_of_eq (tag : UInt64) (src : Addr) :
    recvFlowOpen tag (flowOpen tag) src = some src := by
  have htake : (flowOpen tag).take 64 = flowOpen tag :=
    List.take_of_length_le (by rw [length_flowOpen]; decide)
  rw [recvFlowOpen, htake, if_pos ((isFlowOpen_iff tag _).mpr rfl)]

/-- A stray longer than the buffer fills it, and a flow-open does not. -/
theorem recvFlowOpen_of_ne (h : dgram ≠ flowOpen tag) (src : Addr) :
    recvFlowOpen tag dgram src = none := by
  refine if_neg fun hopen => h ?_
  rw [isFlowOpen_iff] at hopen
  have hlen := congrArg List.length hopen
  rw [List.length_take, length_flowOpen] at hlen
  rwa [List.take_of_length_le (by omega)] at hopen

theorem acceptFlow_stray {as : List (FlowAnswer Addr)} (h : ∀ a ∈ as, a.Stray tag)
    (rest : List (FlowAnswer Addr)) : acceptFlow tag (as ++ rest) = acceptFlow tag rest := by
  induction as with
  | nil => rfl
  | cons a as ih =>
    have hrest := ih fun b hb => h b (List.mem_cons_of_mem a hb)
    have ha := h a List.mem_cons_self
    cases a with
    | wouldBlock => exact hrest
    | fails => exact ha.elim
    | datagram dgram src =>
      rw [List.cons_append, acceptFlow, recvFlowOpen_of_ne ha]
      exact hrest

theorem acceptFlow_eq_ok {answers : List (FlowAnswer Addr)} (h : acceptFlow tag answers = .ok src) :
    ∃ before after, answers = before ++ .datagram (flowOpen tag) src :: after ∧
      ∀ a ∈ before, a.Stray tag := by
  induction answers with
  | nil => cases h
  | cons a as ih =>
    have hskip : acceptFlow tag as = .ok src → a.Stray tag →
        ∃ before after, a :: as = before ++ .datagram (flowOpen tag) src :: after ∧
          ∀ a ∈ before, a.Stray tag := by
      intro has ha
      obtain ⟨before, after, rfl, hstray⟩ := ih has
      exact ⟨a :: before, after, rfl, List.forall_mem_cons.mpr ⟨ha, hstray⟩⟩
    cases a with
    | wouldBlock => exact hskip h trivial
    | fails => cases h
    | datagram dgram src' =>
      by_cases hd : dgram = flowOpen tag
      · subst hd
        rw [acceptFlow, recvFlowOpen_of_eq] at h
        cases h
        exact ⟨[], as, rfl, by simp⟩
      · rw [acceptFlow, recvFlowOpen_of_ne hd] at h
        exact hskip h hd

end Udp

/-! ## The data path -/

theorem Layout.ne_flowOpenBlock {l : Layout} {b : UInt32} (h : b < l.numBlocks) :
    b ≠ flowOpenBlock := by
  rintro rfl
  have hmax : flowOpenBlock.toNat = 2 ^ 32 - 1 := rfl
  have := UInt32.lt_iff_toNat_lt.mp h
  have := l.numBlocks.toNat_lt
  omega

theorem TxPlane.encodeInto_ne_flowOpen {enc : Encrypt} {plane : TxPlane} {tag : UInt64}
    {b : UInt32} {payload out : Octets} (hb : b ≠ flowOpenBlock)
    (hok : (plane.encodeInto enc tag b payload out).ok = true) :
    ∃ d, (plane.encodeInto enc tag b payload out).out = out ++ d ∧ ∀ t, d ≠ flowOpen t := by
  cases plane with
  | plain =>
    exact ⟨Datagram.encode tag b payload, Datagram.encodeInto_eq tag b payload out,
      fun t => encode_ne_flowOpen hb tag t payload⟩
  | sealed sealer =>
    obtain ⟨cipher, mac, -, -, hout⟩ := encodeInto_sealed_ok hok
    refine ⟨_, hout, fun t => ?_⟩
    rw [List.append_assoc]
    exact sealed_ne_flowOpen _ _ t _

/-- Either plane refuses a flow-open, or opens it to an empty payload. -/
theorem RxPlane.open_flowOpen (plane : RxPlane) (dec : Decrypt) (tag t : UInt64) :
    plane.open dec tag (flowOpen t) = .ok (none, plane) ∨
      plane.open dec tag (flowOpen t) = .ok (some (flowOpenBlock, []), plane) := by
  cases plane with
  | sealed w =>
    have hmagic : (flowOpen t).take 4 ≠ Sealed.magic := by
      rw [take_flowOpen]
      decide
    refine .inl ?_
    rw [RxPlane.open, openDatagram, if_pos (.inr hmagic)]
    rfl
  | plain =>
    rw [RxPlane.open, flowOpen, decode_encode]
    split
    · exact .inr rfl
    · exact .inl rfl

/-- At the data path only the history of opened buffers can show a flow-open. -/
theorem Collect.onDatagram_flowOpen {rq : Raptorq} (dec : Decrypt) (l : Layout) (tag t : UInt64)
    (c : Collect rq) (w : WriteOutcome) :
    ∃ opened, c.onDatagram dec l tag (flowOpen t) w = .ok { c with opened } := by
  rcases c.plane.open_flowOpen dec tag t with h | h
  · exact ⟨c.opened, Collect.onDatagram_none h⟩
  · refine ⟨c.opened ++ [flowOpen t], ?_⟩
    rw [Collect.onDatagram, h, Checked.ok_bind]
    rfl

/-- **Flow-open datagrams are unambiguous.** `recv_flow_open` accepts a datagram
exactly when it is the whole of `flow_open(t)`; nothing that either plane emits
for a block of a layout is accepted for any tag; a flow-open at the receiver's
data path changes none of its state; and `accept_flow` returns an address
exactly when it is the source of the first datagram equal to `flow_open(t)`,
after strays only. -/
theorem flow_open_unambiguous (Addr : Type) (t : UInt64) :
    (∀ (dgram : Octets) (src peer : Addr),
      Udp.recvFlowOpen t dgram src = some peer ↔ dgram = flowOpen t ∧ peer = src) ∧
    (∀ (enc : Encrypt) (plane : TxPlane) (tag : UInt64) (l : Layout) (b : UInt32)
      (payload out : Octets) (src : Addr), b < l.numBlocks →
      (plane.encodeInto enc tag b payload out).ok = true →
      ∃ d, (plane.encodeInto enc tag b payload out).out = out ++ d ∧
        Udp.recvFlowOpen t d src = none) ∧
    (∀ (rq : Raptorq) (dec : Decrypt) (l : Layout) (tag : UInt64) (c : Collect rq)
      (w : WriteOutcome), ∃ opened, c.onDatagram dec l tag (flowOpen t) w = .ok { c with opened }) ∧
    ∀ (answers : List (Udp.FlowAnswer Addr)) (src : Addr),
      Udp.acceptFlow t answers = .ok src ↔
        ∃ before after, answers = before ++ .datagram (flowOpen t) src :: after ∧
          ∀ a ∈ before, a.Stray t := by
  refine ⟨fun dgram src peer => ?_, ?_, fun rq dec l tag c w => c.onDatagram_flowOpen dec l tag t w,
    fun answers src => ⟨Udp.acceptFlow_eq_ok, ?_⟩⟩
  · by_cases h : dgram = flowOpen t
    · subst h
      rw [Udp.recvFlowOpen_of_eq]
      simp [eq_comm]
    · rw [Udp.recvFlowOpen_of_ne h]
      simp [h]
  · intro enc plane tag l b payload out src hb hok
    obtain ⟨d, hout, hne⟩ := TxPlane.encodeInto_ne_flowOpen (Layout.ne_flowOpenBlock hb) hok
    exact ⟨d, hout, Udp.recvFlowOpen_of_ne (hne t) src⟩
  · rintro ⟨before, after, rfl, hstray⟩
    rw [Udp.acceptFlow_stray hstray, Udp.acceptFlow, Udp.recvFlowOpen_of_eq]

end AtpExperiment
