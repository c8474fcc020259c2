/-
The anti-replay window (`sealed.rs`, `ReplayWindow`): a circular bitmap of
4096 bits over 64-bit sequence numbers, with the highest number committed.

Arithmetic is that of a build with overflow checks: an addition that leaves
`u64` panics. (Without the checks the same inputs make the clearing loop of
`clear_range_for_advance` run forever: `cursor <= u64::MAX` never fails.)
-/
import AtpExperiment.Lib.Checked
import Mathlib.Tactic.Common

namespace AtpExperiment

/-- `u64::MAX`. -/
def u64Max : UInt64 := 0xFFFFFFFFFFFFFFFF

/-- `REPLAY_WINDOW_BITS`. -/
def replayWindowBits : UInt64 := 4096

/-- `REPLAY_WINDOW_WORDS`. -/
def replayWindowWords : Nat := 64

/-- `ReplayWindow`. -/
structure ReplayWindow where
  bitmap : Vector (BitVec 64) replayWindowWords
  highest : UInt64
  primed : Bool
  deriving DecidableEq

namespace ReplayWindow

/-- `ReplayWindow::new`. -/
def new : ReplayWindow := ⟨Vector.replicate replayWindowWords 0, 0, false⟩

theorem slot_lt (seq : UInt64) : (seq % replayWindowBits).toNat / 64 < replayWindowWords := by
  have : (seq % replayWindowBits).toNat < 4096 := UInt64.toNat_mod_lt seq (by decide)
  unfold replayWindowWords
  omega

/-- `ReplayWindow::slot`: word and mask of a sequence number. -/
def slot (seq : UInt64) : Fin replayWindowWords × BitVec 64 :=
  let bit := (seq % replayWindowBits).toNat
  (⟨bit / 64, slot_lt seq⟩, 1#64 <<< (bit % 64))

/-- `ReplayWindow::is_set`. -/
def isSet (w : ReplayWindow) (seq : UInt64) : Bool :=
  w.bitmap[(slot seq).1] &&& (slot seq).2 != 0

theorem getElem_slot (w : ReplayWindow) (seq : UInt64) :
    w.bitmap[(slot seq).1] = w.bitmap[((slot seq).1 : Nat)]?.getD 0 := by
  rw [Vector.getElem?_eq_getElem (slot seq).1.isLt]
  rfl

/-- `ReplayWindow::set`. -/
def set (w : ReplayWindow) (seq : UInt64) : ReplayWindow :=
  { w with bitmap := w.bitmap.set (slot seq).1 (w.bitmap[(slot seq).1] ||| (slot seq).2) }

/-- `ReplayWindow::clear`. -/
def clear (w : ReplayWindow) (seq : UInt64) : ReplayWindow :=
  { w with bitmap := w.bitmap.set (slot seq).1 (w.bitmap[(slot seq).1] &&& ~~~(slot seq).2) }

/-- `ReplayWindow::would_accept`. -/
def wouldAccept (w : ReplayWindow) (seq : UInt64) : Bool :=
  if !w.primed || w.highest < seq then true
  else if replayWindowBits ≤ w.highest - seq then false
  else !w.isSet seq

/-- The loop of `clear_range_for_advance`: clear `cursor`, …, `newHighest`. -/
def clearLoop (w : ReplayWindow) (cursor newHighest : UInt64) : Checked ReplayWindow :=
  if hle : cursor ≤ newHighest then
    if hlt : cursor.toNat + 1 < 2 ^ 64 then clearLoop (w.clear cursor) (cursor + 1) newHighest
    else .error .overflow
  else .ok w
termination_by newHighest.toNat + 1 - cursor.toNat
decreasing_by
  have hle' : cursor.toNat ≤ newHighest.toNat := UInt64.le_iff_toNat_le.mp hle
  have h1 : (cursor + 1).toNat = cursor.toNat + 1 := by
    rw [UInt64.toNat_add]; exact Nat.mod_eq_of_lt hlt
  omega

/-- `ReplayWindow::clear_range_for_advance`. -/
def clearRangeForAdvance (w : ReplayWindow) (newHighest advance : UInt64) :
    Checked ReplayWindow :=
  if replayWindowBits ≤ advance then
    .ok { w with bitmap := Vector.replicate replayWindowWords 0 }
  else do
    let next ← Checked.addU64 newHighest 1
    let cursor ← Checked.subU64 next advance
    clearLoop w cursor newHighest

/-- `ReplayWindow::commit`. -/
def commit (w : ReplayWindow) (seq : UInt64) : Checked ReplayWindow :=
  if !w.primed then do
    let next ← Checked.addU64 seq 1
    let w ← clearRangeForAdvance { w with primed := true, highest := seq } seq
      (Checked.minU64 replayWindowBits next)
    return w.set seq
  else if w.highest < seq then do
    let w ← clearRangeForAdvance w seq (Checked.minU64 (seq - w.highest) replayWindowBits)
    return ({ w with highest := seq } : ReplayWindow).set seq
  else return w.set seq

/-- `w.primed.then(|| w.highest + 1)` of `SymbolOpener::seq_span`. -/
def seqSpan (w : ReplayWindow) : Checked (Option UInt64) :=
  if w.primed then do
    let s ← Checked.addU64 w.highest 1
    return some s
  else return none

/-- `would_accept(seq)`, and `commit(seq)` right after it when it answered
`true` and the datagram is authentic, as `open_in_place` does. Returns
whether `seq` was committed. -/
def offer (w : ReplayWindow) (seq : UInt64) (authentic : Bool) : Checked (Bool × ReplayWindow) :=
  if w.wouldAccept seq && authentic then do
    let w ← w.commit seq
    return (true, w)
  else return (false, w)

/-- A sequence of such operations, first to last; the committed numbers in
order. -/
def offers (w : ReplayWindow) : List (UInt64 × Bool) → Checked (List UInt64 × ReplayWindow)
  | [] => return ([], w)
  | (s, authentic) :: ops => do
    let (ok, w) ← w.offer s authentic
    let (acc, w) ← w.offers ops
    return (if ok then s :: acc else acc, w)

end ReplayWindow

end AtpExperiment
