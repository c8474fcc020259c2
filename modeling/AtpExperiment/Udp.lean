/-
Batched UDP I/O (`udp.rs`): a super-buffer handed to the kernel as datagrams,
and coalesced buffers taken apart again.

The kernel is what it answers to each call: not now, an error, or how much it
took. With `UDP_SEGMENT` it takes all it is given and splits it every `seg`
bytes; `sendmmsg` takes some of the datagrams it is offered; with `UDP_GRO` it
hands over runs of datagrams as one buffer. `segmentation_transparent`: none of
this can be seen in the datagrams.
-/
import AtpExperiment.Lib.Checked
import AtpExperiment.Lib.Chunks
import AtpExperiment.Lib.Octets
import Mathlib.Data.List.Forall2

namespace AtpExperiment

open Chunks

/-- `MAX_GSO_SEGMENTS`. -/
def maxGsoSegments : Nat := 64

/-- `MAX_GSO_BYTES`. -/
def maxGsoBytes : Nat := 65000

/-- `RECV_MSGS`. -/
def recvMsgs : Nat := 16

/-- `RECV_BUF_LEN`. -/
def recvBufLen : Nat := 2 ^ 16

namespace Udp

/-! ## Sending -/

/-- What a call of `send_segments` on the socket meets. -/
inductive SendAnswer
  | wouldBlock
  | fails
  /-- The call is taken; of the datagrams of a `sendmmsg`, the first `n`. -/
  | takes (n : Nat)
  deriving DecidableEq, Repr

/-- Where `send_segments` is. -/
inductive SendResult
  | ok
  | err
  /-- Waiting for the socket, with `off` bytes sent. -/
  | waiting (off : Nat)
  deriving DecidableEq, Repr

/-- `send_gso`: the kernel takes all of `rest`, split every `seg` bytes. Returns
the datagrams and the bytes taken. -/
def sendGso (rest : Octets) (seg : UInt16) : List Octets × Nat :=
  (chunks seg.toNat rest, rest.length)

/-- `send_mmsg_once`, where the kernel takes `n` of the datagrams offered. -/
def sendMmsgOnce (rest : Octets) (seg n : Nat) : List Octets × Nat :=
  let sent := ((chunks seg rest).take maxGsoSegments).take n
  (sent, (sent.map List.length).sum)

/-- The loop of `send_segments`: the datagrams the kernel was given. -/
def sendLoop (gso : Bool) (buf : Octets) (seg : Nat) :
    Nat → List SendAnswer → List Octets × SendResult
  | off, [] => ([], if off < buf.length then .waiting off else .ok)
  | off, a :: as =>
    if off < buf.length then
      match a with
      | .wouldBlock => sendLoop gso buf seg off as
      | .fails => ([], .err)
      | .takes n =>
        let rest := buf.drop off
        let (ds, sent) :=
          if gso then sendGso rest (UInt16.ofNat seg) else sendMmsgOnce rest seg n
        let (ds', r) := sendLoop gso buf seg (off + sent) as
        (ds ++ ds', r)
    else ([], .ok)

/-- `send_segments`. -/
def sendSegments (gso : Bool) (buf : Octets) (seg : Nat) (answers : List SendAnswer) :
    Checked (List Octets × SendResult) :=
  if 0 < seg ∧ buf.length ≤ maxGsoBytes then return sendLoop gso buf seg 0 answers
  else throw .assertion

theorem taken {gso : Bool} {buf : Octets} {seg off n : Nat} (hseg : 0 < seg) (hu16 : seg < 2 ^ 16)
    (hn : 1 ≤ n) (hoff : off < buf.length) {ds : List Octets} {sent : Nat}
    (h : (if gso then sendGso (buf.drop off) (UInt16.ofNat seg)
      else sendMmsgOnce (buf.drop off) seg n) = (ds, sent)) :
    ∃ k, 1 ≤ k ∧ ds = (chunks seg (buf.drop off)).take k ∧
      chunks seg (buf.drop (off + sent)) = (chunks seg (buf.drop off)).drop k := by
  cases gso with
  | true =>
    obtain ⟨rfl, rfl⟩ := Prod.mk.inj h
    have hne : buf.drop off ≠ [] := by simpa using hoff
    rw [UInt16.toNat_ofNat_of_lt' hu16]
    refine ⟨(chunks seg (buf.drop off)).length, ?_, by simp, ?_⟩
    · rw [chunks_of_ne_nil hseg hne]
      simp
    · rw [List.drop_length, List.drop_of_length_le (by rw [List.length_drop]; omega), chunks_nil]
  | false =>
    obtain ⟨rfl, rfl⟩ := Prod.mk.inj h
    refine ⟨min n maxGsoSegments, ?_, by rw [List.take_take], ?_⟩
    · exact le_min hn (by decide)
    · rw [List.take_take, ← List.drop_drop, ← List.length_flatten, chunks_drop_take hseg]

def SendAnswer.isTaken : SendAnswer → Bool
  | .takes _ => true
  | _ => false

/-- The loop from `off`: what was given to the kernel starts the rest of the
datagrams, is all of it when the loop ends, and the loop ends when there were
as many calls taken as datagrams left. -/
theorem sendLoop_spec (gso : Bool) (buf : Octets) {seg : Nat} (hseg : 0 < seg)
    (hu16 : seg < 2 ^ 16) (answers : List SendAnswer) (htakes : ∀ n, .takes n ∈ answers → 1 ≤ n)
    (off : Nat) :
    let r := sendLoop gso buf seg off answers
    r.1 <+: chunks seg (buf.drop off) ∧ (r.2 = .ok → r.1 = chunks seg (buf.drop off)) ∧
      (.fails ∉ answers → (chunks seg (buf.drop off)).length ≤ answers.countP SendAnswer.isTaken →
        r.2 = .ok) := by
  induction answers generalizing off with
  | nil =>
    refine ⟨List.nil_prefix, fun h => ?_, fun _ h => ?_⟩
    · simp only [sendLoop] at h
      split at h
      · cases h
      · next hoff => rw [List.drop_of_length_le (not_lt.mp hoff)]; rfl
    · have hnil : chunks seg (buf.drop off) = [] := List.eq_nil_of_length_eq_zero (by simpa using h)
      have hflat := chunks_flatten hseg (buf.drop off)
      rw [hnil, List.flatten_nil] at hflat
      have : buf.length ≤ off := by simpa using hflat.symm
      simp [sendLoop, not_lt.mpr this]
  | cons a as ih =>
    have ih := ih fun n h => htakes n (List.mem_cons_of_mem _ h)
    by_cases hoff : off < buf.length
    · simp only [sendLoop, if_pos hoff]
      cases a with
      | wouldBlock =>
        obtain ⟨h₁, h₂, h₃⟩ := ih off
        exact ⟨h₁, h₂, fun hf hc => h₃ (fun h => hf (List.mem_cons_of_mem _ h)) hc⟩
      | fails =>
        exact ⟨List.nil_prefix, nofun, fun hf => absurd List.mem_cons_self hf⟩
      | takes n =>
        obtain ⟨⟨ds, sent⟩, hds⟩ : ∃ p, (if gso then sendGso (buf.drop off) (UInt16.ofNat seg)
          else sendMmsgOnce (buf.drop off) seg n) = p := ⟨_, rfl⟩
        obtain ⟨k, hk, rfl, hrest⟩ := taken hseg hu16 (htakes n List.mem_cons_self) hoff hds
        obtain ⟨h₁, h₂, h₃⟩ := ih (off + sent)
        rw [hrest] at h₁ h₂ h₃
        simp only [hds]
        refine ⟨?_, fun h => ?_, fun hf hc => h₃ (fun h => hf (List.mem_cons_of_mem _ h)) ?_⟩
        · conv_rhs => rw [← List.take_append_drop k (chunks seg (buf.drop off))]
          exact (List.prefix_append_right_inj _).mpr h₁
        · rw [h₂ h, List.take_append_drop]
        · rw [List.countP_cons_of_pos rfl] at hc
          rw [List.length_drop]
          omega
    · have hnil : buf.drop off = [] := List.drop_of_length_le (not_lt.mp hoff)
      simp [sendLoop, hoff, hnil]

/-! ## Receiving -/

/-- A message of a `recvmmsg`: what is in its buffer, and the values of its
`UDP_GRO` control messages. -/
structure RecvMsg where
  data : Octets
  gro : List Int
  fits : data.length ≤ recvBufLen

/-- `gro_segment_size`. -/
def groSegmentSize (gro : List Int) : Option Nat := (gro.find? (0 < ·)).map Int.toNat

/-- The callbacks `recv_batch` makes on a message. -/
def deliver (m : RecvMsg) : List Octets :=
  let len := m.data.length
  if len = 0 then []
  else chunks (max ((groSegmentSize m.gro).getD len) 1) m.data

/-- What a call of `recv_batch` on the socket meets. -/
inductive RecvAnswer
  | wouldBlock
  | fails
  | msgs (ms : List RecvMsg) (h : ms.length ≤ recvMsgs)

/-- `recv_batch`: the callbacks it makes, an error, or still waiting; and the
answers it has not seen. -/
def recvBatch : List RecvAnswer → Option (Except Unit (List Octets)) × List RecvAnswer
  | [] => (none, [])
  | .wouldBlock :: as => recvBatch as
  | .fails :: as => (some (.error ()), as)
  | .msgs ms _ :: as => (some (.ok (ms.flatMap deliver)), as)

/-- The callbacks of up to `n` calls of `recv_batch`, one after the other. -/
def recvBatches : Nat → List RecvAnswer → List Octets
  | 0, _ => []
  | n + 1, as =>
    match recvBatch as with
    | (some (.ok ds), as) => ds ++ recvBatches n as
    | _ => []

/-- The messages of an answer. -/
def RecvAnswer.got : RecvAnswer → List RecvMsg
  | .msgs ms _ => ms
  | _ => []

def RecvAnswer.isMsgs : RecvAnswer → Bool
  | .msgs _ _ => true
  | _ => false

/-- As many calls as there are answers with messages see all of them. -/
theorem recvBatches_eq {n : Nat} {as : List RecvAnswer} (hf : .fails ∉ as)
    (hn : as.countP RecvAnswer.isMsgs ≤ n) :
    recvBatches n as = (as.flatMap RecvAnswer.got).flatMap deliver := by
  induction as generalizing n with
  | nil => cases n <;> rfl
  | cons a as ih =>
    have hf' : .fails ∉ as := fun h => hf (List.mem_cons_of_mem _ h)
    cases a with
    | fails => exact absurd List.mem_cons_self hf
    | wouldBlock =>
      have ih := ih hf' hn
      cases n with
      | zero => exact ih
      | succ n => exact ih
    | msgs ms h =>
      rw [List.countP_cons_of_pos rfl] at hn
      cases n with
      | zero => omega
      | succ n =>
        rw [List.flatMap_cons, List.flatMap_append, ← ih hf' (Nat.le_of_succ_le_succ hn)]
        rfl

/-- What GRO may make of consecutive datagrams: one message, cut to its buffer,
for a run of one size with a last one that may be shorter; the size is
reported, or left out for a datagram by itself. -/
structure Coalesced (run : List Octets) (m : RecvMsg) : Prop where
  ne : run ≠ []
  data : m.data = run.flatten.take recvBufLen
  size : ∃ k, (∀ d ∈ run.dropLast, d.length = k) ∧ (∀ d ∈ run, d.length ≤ k) ∧
    (groSegmentSize m.gro = some k ∨ groSegmentSize m.gro = none ∧ run.length = 1)

theorem deliver_coalesced {run : List Octets} {m : RecvMsg} (h : Coalesced run m)
    (hne : ∀ d ∈ run, d ≠ []) (hfit : run.flatten.length ≤ recvBufLen) : deliver m = run := by
  obtain ⟨hrun, hdata, k, hk, hle, hsize⟩ := h
  rw [List.take_of_length_le hfit] at hdata
  obtain ⟨d, hd⟩ := List.exists_mem_of_ne_nil run hrun
  have hpos : 0 < d.length := List.length_pos_iff.mpr (hne d hd)
  have hlen : run.flatten.length ≠ 0 := by
    intro h0
    exact hne d hd (List.flatten_eq_nil_iff.mp (List.eq_nil_of_length_eq_zero h0) d hd)
  simp only [deliver, hdata, if_neg hlen]
  rcases hsize with hs | ⟨hs, hone⟩
  · have hk1 : max k 1 = k := max_eq_left (lt_of_lt_of_le hpos (hle d hd))
    rw [hs, Option.getD_some, hk1]
    exact chunks_flatten_eq (lt_of_lt_of_le hpos (hle d hd)) hk hne hle
  · obtain ⟨e, rfl⟩ := List.length_eq_one_iff.mp hone
    have he : e ≠ [] := hne e List.mem_cons_self
    rw [List.flatten_cons, List.flatten_nil, List.append_nil] at hlen ⊢
    rw [hs, Option.getD_none, max_eq_left (Nat.pos_of_ne_zero hlen)]
    exact chunks_of_length_le he le_rfl

theorem flatMap_deliver {runs : List (List Octets)} {ms : List RecvMsg}
    (h : List.Forall₂ Coalesced runs ms) (hne : ∀ d ∈ runs.flatten, d ≠ [])
    (hfit : runs.flatten.flatten.length ≤ recvBufLen) : ms.flatMap deliver = runs.flatten := by
  induction h with
  | nil => rfl
  | @cons run m runs ms hm _ ih =>
    simp only [List.flatten_cons, List.flatten_append, List.length_append,
      List.mem_append] at hne hfit
    rw [List.flatMap_cons, List.flatten_cons,
      deliver_coalesced hm (fun d hd => hne d (.inl hd)) (by omega),
      ih (fun d hd => hne d (.inr hd)) (by omega)]

/-! ## End to end -/

/-- **Segmentation is transparent.** For every buffer within the GSO limit and
every segment size up to it, with or without GSO, and whatever the socket
answers, where a call that is taken takes at least one datagram: what the kernel
was given starts `buf.chunks(seg)`, datagram by datagram, and is all of it when
`send_segments` returns Ok, which it does once as many calls were taken as there
are datagrams. However GRO coalesces those datagrams into messages, and
however `recvmmsg` hands the messages over, the callbacks of `recv_batch` are
on the same datagrams in the same order. -/
theorem segmentation_transparent (gso : Bool) (buf : Octets) (hbuf : buf.length ≤ maxGsoBytes)
    (seg : Nat) (hseg : 0 < seg) (hlimit : seg ≤ maxGsoBytes) :
    (∀ answers : List SendAnswer, (∀ n, .takes n ∈ answers → 1 ≤ n) →
      ∃ ds r, sendSegments gso buf seg answers = .ok (ds, r) ∧ ds <+: chunks seg buf ∧
        (r = .ok → ds = chunks seg buf) ∧
        (.fails ∉ answers → (chunks seg buf).length ≤ answers.countP SendAnswer.isTaken →
          r = .ok)) ∧
    ∀ (runs : List (List Octets)) (ms : List RecvMsg), runs.flatten = chunks seg buf →
      List.Forall₂ Coalesced runs ms → ∀ answers : List RecvAnswer, .fails ∉ answers →
        answers.flatMap RecvAnswer.got = ms → ∀ n, answers.countP RecvAnswer.isMsgs ≤ n →
          recvBatches n answers = chunks seg buf := by
  have hu16 : seg < 2 ^ 16 := lt_of_le_of_lt hlimit (by decide)
  refine ⟨fun answers htakes => ?_, fun runs ms hruns hms answers hf hgot n hn => ?_⟩
  · obtain ⟨h₁, h₂, h₃⟩ := sendLoop_spec gso buf hseg hu16 answers htakes 0
    rw [List.drop_zero] at h₁ h₂ h₃
    exact ⟨_, _, if_pos ⟨hseg, hbuf⟩, h₁, h₂, h₃⟩
  · rw [recvBatches_eq hf hn, hgot, flatMap_deliver hms, hruns]
    · intro d hd
      rw [hruns] at hd
      exact ne_nil_of_mem_chunks hseg hd
    · rw [hruns, chunks_flatten hseg]
      exact le_trans hbuf (by decide)

/-- Five bytes as segments of two, without GSO: between would-blocks the kernel
takes one datagram at a time, and they arrive as a run of two and a single
one, in two batches. -/
theorem segmentation_five_bytes :
    sendSegments false [1, 2, 3, 4, 5] 2 [.wouldBlock, .takes 1, .takes 1, .wouldBlock, .takes 9] =
        .ok ([[1, 2], [3, 4], [5]], .ok) ∧
      recvBatches 2 [.msgs [⟨[1, 2, 3, 4], [2], by decide⟩] (by decide), .wouldBlock,
        .msgs [⟨[5], [], by decide⟩] (by decide)] = [[1, 2], [3, 4], [5]] := by
  obtain ⟨hsend, hrecv⟩ := segmentation_transparent false [1, 2, 3, 4, 5] (by decide) 2 (by decide)
    (by decide)
  have hchunks : chunks 2 ([1, 2, 3, 4, 5] : Octets) = [[1, 2], [3, 4], [5]] := by decide
  rw [hchunks] at hsend hrecv
  constructor
  · obtain ⟨ds, r, h, -, hok, hdone⟩ :=
      hsend [.wouldBlock, .takes 1, .takes 1, .wouldBlock, .takes 9] (by simp)
    have hr : r = .ok := hdone (by decide) (by decide)
    rw [h, hok hr, hr]
  · refine hrecv [[[1, 2], [3, 4]], [[5]]] _ rfl (.cons ?_ (.cons ?_ .nil)) _ (by simp) rfl 2
      (by decide)
    · exact ⟨by decide, rfl, 2, by decide, by decide, .inl (by decide)⟩
    · exact ⟨by decide, rfl, 1, by decide, by decide, .inr ⟨by decide, rfl⟩⟩

end Udp

end AtpExperiment
