/-
The control stream (`write_frame`, `read_frame`): length-prefixed JSON.

A frame is four bytes of length and its JSON body. However the bytes arrive,
reading takes exactly the frames that were written and stops where they end;
a stream that is cut anywhere gives the frames that are complete and then an
error (`control_stream`). Of `serde_json` only that it decodes what it encoded
is used.
-/
import AtpExperiment.Lib.StreamReader
import AtpExperiment.Wire
import Mathlib.Data.Nat.Digits.Defs

namespace AtpExperiment

open Octets StreamReader

/-- `MAX_FRAME_LEN`. -/
def maxFrameLen : Nat := 1 <<< 20

/-- `serde_json` on frames. -/
structure Json where
  toVec : Frame → Option Octets
  fromSlice : Octets → Option Frame

namespace Json

/-- What it encodes it decodes back. -/
def RoundTrips (json : Json) : Prop :=
  ∀ f body, json.toVec f = some body → json.fromSlice body = some f

/-- `write_frame`: the bytes given to the writer. -/
def writeFrame (json : Json) (frame : Frame) : Except Error Octets :=
  match json.toVec frame with
  | none => .error .json
  | some body =>
    if body.length < 2 ^ 32 then .ok (leBytes 4 body.length ++ body)
    else .error (.protocol "frame too large")

/-- `read_frame`: the frame, and what of the stream is left. -/
def readFrame (json : Json) (r : List Octets) : Except Error (Frame × List Octets) :=
  match readExact 4 r with
  | none => .error .io
  | some (lenBuf, r) =>
    let len := fromLe lenBuf
    if maxFrameLen < len then .error (.protocol s!"frame length {len} exceeds limit")
    else
      match readExact len r with
      | none => .error .io
      | some (body, r) =>
        match json.fromSlice body with
        | none => .error .json
        | some f => .ok (f, r)

/-- `write_frame` on each frame of a list. -/
def writeFrames (json : Json) : List Frame → Except Error Octets
  | [] => .ok []
  | f :: fs =>
    match json.writeFrame f, json.writeFrames fs with
    | .ok bytes, .ok rest => .ok (bytes ++ rest)
    | .error e, _ => .error e
    | _, .error e => .error e

/-- At most `n` calls of `read_frame`, to the first error: the frames, and the
error or what is left. -/
def readFrames (json : Json) : Nat → List Octets → List Frame × Except Error (List Octets)
  | 0, r => ([], .ok r)
  | n + 1, r =>
    match json.readFrame r with
    | .error e => ([], .error e)
    | .ok (f, r) => (f :: (json.readFrames n r).1, (json.readFrames n r).2)

variable {json : Json}

/-! ## One frame -/

/-- The JSON body of a frame is within the limit. -/
def Fits (json : Json) (f : Frame) : Prop :=
  ∃ body, json.toVec f = some body ∧ body.length ≤ maxFrameLen

theorem Fits.writeFrame {f : Frame} (h : json.Fits f) :
    ∃ body, json.toVec f = some body ∧ body.length ≤ maxFrameLen ∧
      json.writeFrame f = .ok (leBytes 4 body.length ++ body) := by
  obtain ⟨body, hbody, hle⟩ := h
  have hlt : body.length < 2 ^ 32 := Nat.lt_of_le_of_lt hle (by decide)
  exact ⟨body, hbody, hle, by simp only [Json.writeFrame, hbody, if_pos hlt]⟩

theorem Fits.writeFrame_ok {f : Frame} (h : json.Fits f) :
    ∃ bytes, json.writeFrame f = .ok bytes := by
  obtain ⟨body, -, -, hw⟩ := h.writeFrame
  exact ⟨_, hw⟩

theorem fromLe_leBytes_length {body : Octets} (h : body.length ≤ maxFrameLen) :
    fromLe (leBytes 4 body.length) = body.length := by
  rw [fromLe_leBytes]
  exact Nat.mod_eq_of_lt (Nat.lt_of_le_of_lt h (by decide))

/-- Reading a stream that starts with a written frame returns the frame and
leaves the rest. -/
theorem readFrame_written (hjson : json.RoundTrips) {f : Frame} (hf : json.Fits f)
    {bytes rest : Octets} (hw : json.writeFrame f = .ok bytes) {r : List Octets} (hr : Ready r)
    (h : r.flatten = bytes ++ rest) :
    ∃ r', json.readFrame r = .ok (f, r') ∧ Ready r' ∧ r'.flatten = rest := by
  obtain ⟨body, hbody, hle, hw'⟩ := hf.writeFrame
  cases hw.symm.trans hw'
  rw [List.append_assoc] at h
  obtain ⟨r₁, h₁, hr₁, hf₁⟩ := readExact_append hr h
  obtain ⟨r₂, h₂, hr₂, hf₂⟩ := readExact_append hr₁ hf₁
  rw [length_leBytes] at h₁
  refine ⟨r₂, ?_, hr₂, hf₂⟩
  simp only [readFrame, h₁, fromLe_leBytes_length hle, if_neg (Nat.not_lt.mpr hle), h₂,
    hjson f body hbody]

/-- Reading a stream that ends inside a written frame fails. -/
theorem readFrame_cut {f : Frame} (hf : json.Fits f) {bytes : Octets}
    (hw : json.writeFrame f = .ok bytes) {r : List Octets} (hr : Ready r)
    (hpre : r.flatten <+: bytes) (hne : r.flatten ≠ bytes) : json.readFrame r = .error .io := by
  obtain ⟨body, hbody, hle, hw'⟩ := hf.writeFrame
  cases hw.symm.trans hw'
  by_cases hlen : r.flatten.length < 4
  · -- The cut is in the length.
    simp only [readFrame, readExact_short hlen]
  · obtain ⟨front, hfront, hsplit⟩ : ∃ front, front <+: body ∧
        r.flatten = leBytes 4 body.length ++ front := by
      have hlong : leBytes 4 body.length <+: r.flatten :=
        List.prefix_of_prefix_length_le (List.prefix_append _ _) hpre
          (by rw [length_leBytes]; omega)
      obtain ⟨front, hfront⟩ := hlong
      rw [← hfront, List.prefix_append_right_inj] at hpre
      exact ⟨front, hpre, hfront.symm⟩
    have hshort : front.length < body.length := by
      refine Nat.lt_of_le_of_ne hfront.length_le fun heq => hne ?_
      rw [hsplit, hfront.eq_of_length heq]
    obtain ⟨r₁, h₁, hr₁, hf₁⟩ := readExact_append hr hsplit
    rw [length_leBytes] at h₁
    simp only [readFrame, h₁, fromLe_leBytes_length hle, if_neg (Nat.not_lt.mpr hle),
      readExact_short (show r₁.flatten.length < body.length by rwa [hf₁])]

/-! ## Lists of frames -/

theorem writeFrames_cons_iff {f : Frame} {fs : List Frame} {bytes out : Octets}
    (hw : json.writeFrame f = .ok bytes) :
    json.writeFrames (f :: fs) = .ok out ↔
      ∃ rest, json.writeFrames fs = .ok rest ∧ out = bytes ++ rest := by
  simp only [writeFrames, hw]
  cases json.writeFrames fs with
  | error e => simp
  | ok rest => simp [eq_comm]

theorem writeFrames_ok {fs : List Frame} (h : ∀ f ∈ fs, json.Fits f) :
    ∃ bytes, json.writeFrames fs = .ok bytes := by
  induction fs with
  | nil => exact ⟨[], rfl⟩
  | cons f fs ih =>
    obtain ⟨rest, hrest⟩ := ih fun g hg => h g (List.mem_cons_of_mem f hg)
    obtain ⟨first, hw⟩ := (h f List.mem_cons_self).writeFrame_ok
    exact ⟨_, (writeFrames_cons_iff hw).mpr ⟨rest, hrest, rfl⟩⟩

/-- The frames `fs` are complete in `bytes`: it starts with what was written
for them. -/
def Complete (json : Json) (bytes : Octets) (fs : List Frame) : Prop :=
  ∃ written, json.writeFrames fs = .ok written ∧ written <+: bytes

theorem complete_nil (bytes : Octets) : json.Complete bytes [] := ⟨[], rfl, List.nil_prefix⟩

theorem complete_cons_iff {f : Frame} {fs : List Frame} {bytes rest : Octets}
    (hw : json.writeFrame f = .ok bytes) :
    json.Complete (bytes ++ rest) (f :: fs) ↔ json.Complete rest fs := by
  simp only [Complete, writeFrames_cons_iff hw]
  constructor
  · intro h
    obtain ⟨written, ⟨tail, htail, rfl⟩, hpre⟩ := h
    exact ⟨tail, htail, (List.prefix_append_right_inj bytes).mp hpre⟩
  · intro h
    obtain ⟨tail, htail, hpre⟩ := h
    exact ⟨bytes ++ tail, ⟨tail, htail, rfl⟩, (List.prefix_append_right_inj bytes).mpr hpre⟩

theorem readFrames_written (hjson : json.RoundTrips) {fs : List Frame}
    (hfs : ∀ f ∈ fs, json.Fits f) {bytes suffix : Octets} (hw : json.writeFrames fs = .ok bytes)
    {r : List Octets} (hr : Ready r) (h : r.flatten = bytes ++ suffix) :
    ∃ r', json.readFrames fs.length r = (fs, .ok r') ∧ r'.flatten = suffix := by
  induction fs generalizing r bytes with
  | nil =>
    cases hw
    exact ⟨r, rfl, h⟩
  | cons f fs ih =>
    have hf := hfs f List.mem_cons_self
    obtain ⟨first, hwf⟩ := hf.writeFrame_ok
    obtain ⟨rest, hrest, rfl⟩ := (writeFrames_cons_iff hwf).mp hw
    rw [List.append_assoc] at h
    obtain ⟨r₁, h₁, hr₁, hf₁⟩ := readFrame_written hjson hf hwf hr h
    obtain ⟨r₂, h₂, hf₂⟩ := ih (fun g hg => hfs g (List.mem_cons_of_mem f hg)) hrest hr₁ hf₁
    exact ⟨r₂, by simp only [List.length_cons, readFrames, h₁, h₂], hf₂⟩

/-- Reading a stream that was cut: the complete frames, then an error. -/
theorem readFrames_cut (hjson : json.RoundTrips) {fs : List Frame}
    (hfs : ∀ f ∈ fs, json.Fits f) {bytes : Octets} (hw : json.writeFrames fs = .ok bytes)
    {r : List Octets} (hr : Ready r) (hpre : r.flatten <+: bytes) (hne : r.flatten ≠ bytes) :
    ∃ k < fs.length, json.Complete r.flatten (fs.take k) ∧
      ¬ json.Complete r.flatten (fs.take (k + 1)) ∧
      ∀ n, k < n → json.readFrames n r = (fs.take k, .error .io) := by
  induction fs generalizing r bytes with
  | nil =>
    cases hw
    exact absurd (List.prefix_nil.mp hpre) hne
  | cons f fs ih =>
    have hf := hfs f List.mem_cons_self
    obtain ⟨first, hwf⟩ := hf.writeFrame_ok
    obtain ⟨rest, hrest, rfl⟩ := (writeFrames_cons_iff hwf).mp hw
    by_cases hfirst : first <+: r.flatten
    · -- The first frame is complete, and the cut is in the rest.
      obtain ⟨front, hfront⟩ := hfirst
      obtain ⟨r₁, h₁, hr₁, hf₁⟩ := readFrame_written hjson hf hwf hr hfront.symm
      rw [← hfront, List.prefix_append_right_inj] at hpre
      rw [← hfront, ne_eq, List.append_cancel_left_eq] at hne
      rw [← hf₁] at hpre hne
      obtain ⟨k, hk, hin, hout, hread⟩ :=
        ih (fun g hg => hfs g (List.mem_cons_of_mem f hg)) hrest hr₁ hpre hne
      rw [hf₁] at hin hout
      refine ⟨k + 1, Nat.succ_lt_succ hk, ?_, ?_, ?_⟩
      · rw [← hfront, List.take_succ_cons, complete_cons_iff hwf]
        exact hin
      · rw [← hfront, List.take_succ_cons, complete_cons_iff hwf]
        exact hout
      · intro n hn
        obtain ⟨n, rfl⟩ := Nat.exists_eq_succ_of_ne_zero (Nat.ne_of_gt (Nat.zero_lt_of_lt hn))
        simp only [readFrames, h₁, hread n (Nat.lt_of_succ_lt_succ hn), List.take_succ_cons]
    · have hcut := (List.prefix_or_prefix_of_prefix hpre (List.prefix_append _ rest)).resolve_right
        hfirst
      have herr := readFrame_cut hf hwf hr hcut (fun heq => hfirst (heq ▸ List.prefix_rfl))
      refine ⟨0, Nat.succ_pos _, complete_nil _, ?_, ?_⟩
      · intro h
        obtain ⟨written, hwritten, hpre'⟩ := h
        obtain ⟨tail, -, rfl⟩ := (writeFrames_cons_iff hwf).mp hwritten
        exact hfirst ((List.prefix_append _ tail).trans hpre')
      · intro n hn
        obtain ⟨n, rfl⟩ := Nat.exists_eq_succ_of_ne_zero (Nat.ne_of_gt hn)
        simp only [readFrames, herr, List.take_zero]

/-- **The control stream carries frames faithfully.** Whatever pieces the
reads return, reading what was written for `fs`, with any bytes after it,
returns `fs` and leaves those bytes; and of a stream that was cut, reading
returns the frames that are complete in it and then an error. -/
theorem control_stream (json : Json) (hjson : json.RoundTrips) (fs : List Frame)
    (hfs : ∀ f ∈ fs, json.Fits f) :
    ∃ bytes, json.writeFrames fs = .ok bytes ∧
      (∀ suffix r, Ready r → r.flatten = bytes ++ suffix →
        ∃ r', json.readFrames fs.length r = (fs, .ok r') ∧ r'.flatten = suffix) ∧
      (∀ r, Ready r → r.flatten <+: bytes → r.flatten ≠ bytes →
        ∃ k < fs.length, json.Complete r.flatten (fs.take k) ∧
          ¬ json.Complete r.flatten (fs.take (k + 1)) ∧
          ∀ n, k < n → json.readFrames n r = (fs.take k, .error .io)) := by
  obtain ⟨bytes, hw⟩ := writeFrames_ok hfs
  refine ⟨bytes, hw, ?_, ?_⟩
  · intro suffix r hr h
    exact readFrames_written hjson hfs hw hr h
  · intro r hr hpre hne
    exact readFrames_cut hjson hfs hw hr hpre hne

/-! ## Two frames -/

def ascii (s : String) : Octets := s.toList.map fun c => UInt8.ofNat c.toNat

/-- A number in decimal. -/
def decimal (n : Nat) : Octets :=
  if n = 0 then [48] else (Nat.digits 10 n).reverse.map fun d => UInt8.ofNat (48 + d)

def ofDecimal (bs : Octets) : Nat := Nat.ofDigits 10 (bs.reverse.map fun b => b.toNat - 48)

theorem ofDecimal_decimal (n : Nat) : ofDecimal (decimal n) = n := by
  by_cases hn : n = 0
  · subst hn
    rfl
  have hdigit : ∀ d ∈ Nat.digits 10 n, (UInt8.ofNat (48 + d)).toNat - 48 = d := by
    intro d hd
    have hlt := Nat.digits_lt_base (by decide) hd
    rw [UInt8.toNat_ofNat_of_lt' (by rw [UInt8.size]; omega)]
    omega
  have hmap : (Nat.digits 10 n).map ((fun b : UInt8 => b.toNat - 48) ∘
      fun d => UInt8.ofNat (48 + d)) = Nat.digits 10 n :=
    (List.map_congr_left hdigit).trans (List.map_id' _)
  rw [decimal, if_neg hn, ofDecimal, ← List.map_reverse, List.reverse_reverse, List.map_map, hmap,
    Nat.ofDigits_digits]

/-- ManifestAck as `serde_json` writes it. -/
def manifestAckText : Octets := ascii "\x7b\"t\":\"manifest_ack\"\x7d"

/-- BlockDecoded as `serde_json` writes it. -/
def blockDecodedText (index : UInt32) : Octets :=
  ascii "\x7b\"t\":\"block_decoded\",\"index\":" ++ decimal index.toNat ++ ascii "\x7d"

/-- `serde_json` on these two frames. It reads no other text than it writes. -/
def acks : Json where
  toVec
    | .manifestAck => some manifestAckText
    | .blockDecoded index => some (blockDecodedText index)
    | _ => none
  fromSlice body :=
    let index := UInt32.ofNat (ofDecimal (body.drop 29).dropLast)
    if body = manifestAckText then some .manifestAck
    else if body = blockDecodedText index then some (.blockDecoded index)
    else none

theorem acks_roundTrips : acks.RoundTrips := by
  intro f body h
  cases f with
  | manifestAck =>
    cases h
    simp only [acks, if_true]
  | blockDecoded index =>
    cases h
    have hne : blockDecodedText index ≠ manifestAckText := by
      intro he
      have h6 := congrArg (fun bs : Octets => bs.take 7) he
      have hleft : (blockDecodedText index).take 7 = [123, 34, 116, 34, 58, 34, 98] := rfl
      rw [hleft] at h6
      exact absurd h6 (by decide)
    have hindex : UInt32.ofNat (ofDecimal ((blockDecodedText index).drop 29).dropLast) = index := by
      have hdrop : (blockDecodedText index).drop 29 = decimal index.toNat ++ [125] := rfl
      rw [hdrop, List.dropLast_concat, ofDecimal_decimal, UInt32.ofNat_toNat]
    simp only [acks, hindex, if_neg hne, if_true]
  | _ => cases h

/-- Two frames and a byte after them, in pieces that end inside a length and inside
a body; and the same cut in the second frame. -/
theorem control_stream_two_frames :
    let first :=
      [[20, 0, 0], 0 :: manifestAckText, [31, 0, 0, 0] ++ (blockDecodedText 7).take 10]
    (∃ r', acks.readFrames 2 (first ++ [(blockDecodedText 7).drop 10, [9]]) =
      ([.manifestAck, .blockDecoded 7], .ok r') ∧ r'.flatten = [9]) ∧
    ∃ k < 2, ¬ acks.Complete first.flatten ([Frame.manifestAck, .blockDecoded 7].take (k + 1)) ∧
      acks.readFrames 2 first = ([Frame.manifestAck, .blockDecoded 7].take k, .error .io) := by
  intro first
  obtain ⟨bytes, hw, hall, hcut⟩ := control_stream acks acks_roundTrips
    [.manifestAck, .blockDecoded 7] (by
      intro f hf
      rcases List.mem_pair.mp hf with rfl | rfl
      · exact ⟨_, rfl, by decide⟩
      · exact ⟨_, rfl, by decide⟩)
  cases hw
  refine ⟨hall [9] _ (by unfold Ready; decide) (by decide), ?_⟩
  obtain ⟨k, hk, -, hout, hread⟩ := hcut first (by unfold Ready; decide) (by decide) (by decide)
  exact ⟨k, hk, hout, hread 2 hk⟩

end Json

end AtpExperiment
