/-
The pacer is a token bucket.

A call of `pace(len)` at rate `R` is a use of cost `len / R` in the sense of
`TokenBucket`, with `MAX_BURST` as the burst: `next` is its deadline, and the
sleep ends no earlier (`Paced.uses`). So no window of calls carries more than
its rate and one burst, and calls that are never more than a burst late lose
nothing (`pacer_token_bucket`).
-/
import AtpExperiment.Lib.TokenBucket
import AtpExperiment.Rate

namespace AtpExperiment

open Rate Runs

/-- A call of `pace`: the rate set before it, the instants of the call and of
its return, and the bytes. -/
structure PaceCall where
  rate : ℚ
  now : ℚ
  len : Nat
  ret : ℚ

namespace PaceCall

/-- The send time of a call's bytes. -/
def cost (c : PaceCall) : ℚ := c.len / c.rate

/-- The call as a use of the bucket. -/
def use (c : PaceCall) : TokenBucket.Use ℚ := ⟨c.now, c.cost, c.ret⟩

/-- The send time of calls. -/
def spent : List PaceCall → ℚ
  | [] => 0
  | c :: cs => c.cost + spent cs

theorem total_use (cs : List PaceCall) : TokenBucket.total (cs.map use) = spent cs := by
  induction cs with
  | nil => rfl
  | cons c cs ih => rw [List.map_cons, TokenBucket.total, ih, spent, use]

end PaceCall

namespace Pacer

/-- A call at a positive rate that returns; the sleep ends no earlier than asked. -/
structure Paced (p : Pacer) (c : PaceCall) (p' : Pacer) : Prop where
  rate : 0 < c.rate
  after : ∃ sleep, (p.setRateBps c.rate).pace c.now c.len = .ok (p', sleep) ∧
    c.now + sleep ≤ c.ret

/-- The call arrives no later than `MAX_BURST` after the previous deadline. -/
def OnTime (p : Pacer) (c : PaceCall) : Prop := ∀ d, p.next = some d → c.now ≤ d + maxBurst

variable {p p' : Pacer} {c : PaceCall} {calls : List PaceCall}

theorem pace_eq_ok (hrate : 0 < c.rate) {sleep : ℚ}
    (h : (p.setRateBps c.rate).pace c.now c.len = .ok (p', sleep)) :
    p' = ⟨c.rate, some (TokenBucket.deadline maxBurst p.next c.use)⟩ ∧
      sleep = max 0 (TokenBucket.deadline maxBurst p.next c.use - c.now) := by
  have hnot : ¬ (p.setRateBps c.rate).bytesPerSec ≤ 0 := not_le.mpr hrate
  simp only [pace, if_neg hnot] at h
  split at h
  · cases h
  split at h
  · cases h
  cases h
  obtain ⟨_, next⟩ := p
  cases next <;> exact ⟨rfl, rfl⟩

/-- A call is a use of the bucket. -/
theorem Paced.uses (h : Paced p c p') : TokenBucket.Uses maxBurst p.next c.use p'.next := by
  obtain ⟨hrate, sleep, hpace, hret⟩ := h
  obtain ⟨rfl, rfl⟩ := pace_eq_ok hrate hpace
  refine ⟨rfl, ?_⟩
  have hsleep := le_max_right 0 (TokenBucket.deadline maxBurst p.next c.use - c.now)
  show _ ≤ c.ret
  linarith

/-- **The pacer's token-bucket law.** For any calls of `pace` at positive rates,
the rate set anew before each or not: the send time of any window of them is at
most the time from the first call of the window to the last return, and
`MAX_BURST`. If every call arrives no later than `MAX_BURST` after the previous
deadline, the deadline is the first call's instant and the send time of all the
calls, exactly. -/
theorem pacer_token_bucket (bytesPerSec : ℚ) (h : Trace Paced (newBps bytesPerSec) calls p) :
    (∀ before window after first last, calls = before ++ window ++ after →
      window.head? = some first → window.getLast? = some last →
      PaceCall.spent window ≤ (last.ret - first.now) + maxBurst) ∧
    (∀ first, calls.head? = some first →
      Trace (fun p c p' => Paced p c p' ∧ OnTime p c) (newBps bytesPerSec) calls p →
      p.next = some (first.now + PaceCall.spent calls)) := by
  refine ⟨fun before window after first last hcalls hfirst hlast => ?_, fun first hfirst hall => ?_⟩
  · rw [hcalls] at h
    obtain ⟨_, hw, -⟩ := h.split
    obtain ⟨_, -, hw⟩ := hw.split
    have huses := hw.map (TokenBucket.Uses maxBurst) next PaceCall.use
      fun p c p' hst => hst.uses
    rw [← PaceCall.total_use]
    have hhead : (window.map PaceCall.use).head? = some first.use := by
      rw [List.head?_map, hfirst, Option.map_some]
    have htail : (window.map PaceCall.use).getLast? = some last.use := by
      rw [List.getLast?_map, hlast, Option.map_some]
    have hburst : (0 : ℚ) ≤ maxBurst := by norm_num [maxBurst]
    simpa only [PaceCall.use] using TokenBucket.total_le hburst huses hhead htail
  · have huses := hall.map
      (fun s u t => TokenBucket.Uses maxBurst s u t ∧ TokenBucket.Prompt maxBurst s u)
      next PaceCall.use fun p c p' hst => ⟨hst.1.uses, hst.2⟩
    rw [← PaceCall.total_use]
    have hhead : (calls.map PaceCall.use).head? = some first.use := by
      rw [List.head?_map, hfirst, Option.map_some]
    simpa only [PaceCall.use] using TokenBucket.deadline_of_first huses hhead

/-- Ten bytes at 1000 bytes a second, and 5 ms late another ten at 2000. -/
def pacedExample : List PaceCall := [⟨1000, 0, 10, 1 / 100⟩, ⟨2000, 3 / 200, 10, 3 / 200⟩]

theorem pacer_token_bucket_two : ∃ p, Trace Paced (newBps 1000) pacedExample p ∧
    PaceCall.spent pacedExample ≤ (3 / 200 - 0) + maxBurst ∧
    p.next = some (0 + PaceCall.spent pacedExample) := by
  have hall : Trace (fun p c p' => Paced p c p' ∧ OnTime p c) (newBps 1000) pacedExample
      ⟨2000, some (3 / 200)⟩ := by
    refine .cons (t := ⟨1000, some (1 / 100)⟩) ⟨⟨by decide +kernel, 1 / 100, by decide +kernel,
      by decide +kernel⟩, fun d hd => ?_⟩ (.cons ⟨⟨by decide +kernel, 0, by decide +kernel,
      by decide +kernel⟩, fun d hd => ?_⟩ .nil)
    · cases hd
    · cases hd
      norm_num [maxBurst]
  have hpaced := hall.map Paced id id fun _ _ _ hst => hst.1
  rw [List.map_id] at hpaced
  obtain ⟨hwindow, hdeadline⟩ := pacer_token_bucket 1000 hpaced
  have hspent := hwindow [] pacedExample [] ⟨1000, 0, 10, 1 / 100⟩ ⟨2000, 3 / 200, 10, 3 / 200⟩
    rfl rfl rfl
  have hnext := hdeadline ⟨1000, 0, 10, 1 / 100⟩ rfl hall
  exact ⟨_, hpaced, hspent, hnext⟩

end Pacer

end AtpExperiment
