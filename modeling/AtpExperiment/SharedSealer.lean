/-
One `SymbolSealer` shared by any number of callers.

Allocating a number (an atomic fetch-add), writing the header and the body
into the caller's own buffer, and the AEAD call are separate steps that
interleave between callers; `burn_seq` allocates and drops. The steps of one
caller run in sequence are `sealDatagramInto` (`sealDatagramInto_steps`).

`nonces_distinct`: the nonces of all AEAD calls are pairwise distinct, each
is the nonce of the number in its clear header, and a burned number is never
used.
-/
import AtpExperiment.Lib.Runs
import AtpExperiment.SealedFacts
import Mathlib.Logic.Function.Basic

namespace AtpExperiment

open Octets Aead Sealed

namespace SharedSealer

/-- The arguments of one `seal_datagram_into`; `seal_datagram` is `out = []`. -/
structure Args where
  transferTag : UInt64
  blockIndex : UInt32
  payload : Octets
  out : Octets

/-- The buffer after the header and the body are written. -/
def Args.written (a : Args) (seq : UInt64) : Octets :=
  a.out ++ magic ++ leBytes 8 a.transferTag.toNat ++ leBytes 8 seq.toNat ++
    leBytes 4 a.blockIndex.toNat ++ a.payload

/-- Where a caller is. -/
inductive Pc
  | idle
  /-- `next_seq` returned. -/
  | allocated (a : Args) (seq : UInt64)
  /-- The header and the body are in the buffer. -/
  | built (a : Args) (seq : UInt64) (out : Octets)

/-- One call of `seal_in_place`. -/
structure SealCall where
  nonce : Octets
  /-- The clear header of the datagram. -/
  aad : Octets
  ok : Bool

/-- The sealer and its callers, with the history of AEAD calls, of burned
numbers, and the count of allocations. -/
structure State (ι : Type) where
  sealer : SymbolSealer
  pc : ι → Pc
  calls : List SealCall
  burned : List UInt64
  allocations : Nat

variable {ι : Type} [DecidableEq ι]

/-- A fresh sealer, no caller inside a call. -/
def Init (s : State ι) : Prop :=
  s.sealer = .new ∧ (∀ i, s.pc i = .idle) ∧ s.calls = [] ∧ s.burned = [] ∧ s.allocations = 0

/-- One step of one caller. The AEAD is any function, at each call. -/
inductive Step : State ι → State ι → Prop
  | allocate {s : State ι} (i : ι) (a : Args) (h : s.pc i = .idle) :
    Step s { s with
      sealer := s.sealer.nextSeq.2
      pc := Function.update s.pc i (.allocated a s.sealer.nextSeq.1)
      allocations := s.allocations + 1 }
  | build {s : State ι} (i : ι) {a : Args} {seq : UInt64} (h : s.pc i = .allocated a seq) :
    Step s { s with pc := Function.update s.pc i (.built a seq (a.written seq)) }
  | sealInPlace {s : State ι} (i : ι) (enc : Encrypt) {a : Args} {seq : UInt64} {out : Octets}
      (h : s.pc i = .built a seq out) :
    Step s { s with
      pc := Function.update s.pc i .idle
      calls := s.calls ++ [⟨seqNonce seq, (out.drop a.out.length).take headerLen,
        (SymbolSealer.sealInPlace enc seq ((out.drop a.out.length).take headerLen)
          ((out.drop a.out.length).drop headerLen)).isSome⟩] }
  | burnSeq {s : State ι} (i : ι) (h : s.pc i = .idle) :
    Step s { s with
      sealer := s.sealer.nextSeq.2
      burned := s.burned ++ [s.sealer.nextSeq.1]
      allocations := s.allocations + 1 }

/-- A caller's three steps with no other in between are `seal_datagram_into`. -/
theorem sealDatagramInto_steps (enc : Encrypt) (s : SymbolSealer) (a : Args) :
    sealDatagramInto enc s a.transferTag a.blockIndex a.payload a.out =
      let out := a.written s.nextSeq.1
      let aad := (out.drop a.out.length).take headerLen
      match SymbolSealer.sealInPlace enc s.nextSeq.1 aad
          ((out.drop a.out.length).drop headerLen) with
      | none => ⟨s.nextSeq.2, out, none⟩
      | some e => ⟨s.nextSeq.2, out.take a.out.length ++ aad ++ e.cipher ++ e.tag, some e⟩ := rfl

/-! ## Invariant -/

/-- The number a caller holds between its allocation and its AEAD call. -/
def Pc.held : Pc → Option UInt64
  | .idle => none
  | .allocated _ seq => some seq
  | .built _ seq _ => some seq

/-- The number an AEAD call used, read from its clear header. -/
def SealCall.seq (c : SealCall) : UInt64 := wireSeq c.aad

/-- A number some call used, some `burn_seq` skipped, or some caller holds. -/
inductive Taken (s : State ι) (q : UInt64) : Prop
  | called (h : q ∈ s.calls.map SealCall.seq)
  | burned (h : q ∈ s.burned)
  | held (i : ι) (h : (s.pc i).held = some q)

/-- Every allocated number has one owner. -/
structure Inv (s : State ι) : Prop where
  counter : s.sealer.seq.toNat = s.allocations
  /-- Numbers are handed out in order. -/
  below : ∀ q, Taken s q → q.toNat < s.allocations
  distinct : (s.calls.map SealCall.seq).Nodup
  burnedUnused : ∀ q ∈ s.burned, q ∉ s.calls.map SealCall.seq
  heldUnused : ∀ i q, (s.pc i).held = some q → q ∉ s.calls.map SealCall.seq ∧ q ∉ s.burned
  heldOnce : ∀ i j q, (s.pc i).held = some q → (s.pc j).held = some q → i = j
  nonce : ∀ c ∈ s.calls, c.nonce = seqNonce c.seq
  built : ∀ i a seq out, s.pc i = .built a seq out → out = a.written seq

omit [DecidableEq ι] in
theorem inv_init {s : State ι} (h : Init s) : Inv s := by
  obtain ⟨hseq, hpc, hcalls, hburned, hall⟩ := h
  have hheld : ∀ i q, (s.pc i).held ≠ some q := by
    intro i q hq
    rw [hpc] at hq
    cases hq
  refine ⟨by rw [hseq, hall]; rfl, ?_, by simp [hcalls], by simp [hburned],
    fun i q hq => absurd hq (hheld i q), fun i j q hq => absurd hq (hheld i q), by simp [hcalls],
    ?_⟩
  · intro q hq
    cases hq with
    | called h => simp [hcalls] at h
    | burned h => simp [hburned] at h
    | held i h => exact absurd h (hheld i q)
  · intro i a seq out hb
    rw [hpc] at hb
    cases hb

theorem seq_written (a : Args) (seq : UInt64) :
    wireSeq (((a.written seq).drop a.out.length).take headerLen) = seq := by
  have hw : a.written seq = a.out ++ (header a.transferTag seq ++
      (leBytes 4 a.blockIndex.toNat ++ a.payload)) := by
    simp [Args.written, header]
  have hlen := length_header a.transferTag seq
  rw [hw, List.drop_left, List.take_append_of_le_length (by omega),
    List.take_of_length_le (by omega)]
  simpa using wireSeq_header a.transferTag seq []

theorem held_update {pc : ι → Pc} {i j : ι} {p : Pc} {q : UInt64}
    (h : (Function.update pc i p j).held = some q) :
    (j = i ∧ p.held = some q) ∨ (j ≠ i ∧ (pc j).held = some q) := by
  by_cases hj : j = i
  · subst hj
    rw [Function.update_self] at h
    exact .inl ⟨rfl, h⟩
  · rw [Function.update_of_ne hj] at h
    exact .inr ⟨hj, h⟩

theorem built_update {pc : ι → Pc} {i j : ι} {p : Pc} {a : Args} {seq : UInt64} {out : Octets}
    (h : Function.update pc i p j = .built a seq out) :
    p = .built a seq out ∨ pc j = .built a seq out := by
  by_cases hj : j = i
  · subst hj
    rw [Function.update_self] at h
    exact .inl h
  · rw [Function.update_of_ne hj] at h
    exact .inr h

omit [DecidableEq ι] in
/-- The number `next_seq` returns is new, and the counter moves by one. -/
theorem Inv.fresh {s : State ι} (hi : Inv s) (hlt : s.allocations + 1 < 2 ^ 64) :
    (∀ q, Taken s q → q ≠ s.sealer.seq) ∧ (s.sealer.seq + 1).toNat = s.allocations + 1 := by
  constructor
  · intro q hq he
    subst he
    have := hi.below _ hq
    rw [hi.counter] at this
    omega
  · rw [ReplayWindow.toNat_succ (by rw [hi.counter]; exact hlt), hi.counter]

/-! ## Steps -/

theorem inv_allocate {s : State ι} (hi : Inv s) (hlt : s.allocations + 1 < 2 ^ 64) (i : ι)
    (a : Args) :
    Inv { s with
      sealer := s.sealer.nextSeq.2
      pc := Function.update s.pc i (.allocated a s.sealer.nextSeq.1)
      allocations := s.allocations + 1 } := by
  obtain ⟨hnew, hcount⟩ := hi.fresh hlt
  refine ⟨hcount, ?_, hi.distinct, hi.burnedUnused, ?_, ?_, hi.nonce, ?_⟩
  · intro q hq
    have hold : Taken s q → q.toNat < s.allocations + 1 := fun h => by
      have := hi.below q h
      omega
    cases hq with
    | called h => exact hold (.called h)
    | burned h => exact hold (.burned h)
    | held j h =>
      rcases held_update h with ⟨-, hq⟩ | ⟨-, hq⟩
      · cases hq
        have := hi.counter
        simp only [SymbolSealer.nextSeq]
        omega
      · exact hold (.held j hq)
  · intro j q hq
    rcases held_update hq with ⟨-, hq⟩ | ⟨-, hq⟩
    · cases hq
      exact ⟨fun h => hnew _ (.called h) rfl, fun h => hnew _ (.burned h) rfl⟩
    · exact hi.heldUnused j q hq
  · intro j k q hj hk
    rcases held_update hj with ⟨hji, hj'⟩ | ⟨-, hj'⟩
    · rcases held_update hk with ⟨hki, -⟩ | ⟨-, hk'⟩
      · rw [hji, hki]
      · cases hj'
        exact absurd rfl (hnew _ (.held k hk'))
    · rcases held_update hk with ⟨-, hk'⟩ | ⟨-, hk'⟩
      · cases hk'
        exact absurd rfl (hnew _ (.held j hj'))
      · exact hi.heldOnce j k q hj' hk'
  · intro j a' seq out hb
    rcases built_update hb with hb | hb
    · cases hb
    · exact hi.built j a' seq out hb

omit [DecidableEq ι] in
theorem inv_burnSeq {s : State ι} (hi : Inv s) (hlt : s.allocations + 1 < 2 ^ 64) :
    Inv { s with
      sealer := s.sealer.nextSeq.2
      burned := s.burned ++ [s.sealer.nextSeq.1]
      allocations := s.allocations + 1 } := by
  obtain ⟨hnew, hcount⟩ := hi.fresh hlt
  refine ⟨hcount, ?_, hi.distinct, ?_, ?_, hi.heldOnce, hi.nonce, hi.built⟩
  · intro q hq
    have hold : Taken s q → q.toNat < s.allocations + 1 := fun h => by
      have := hi.below q h
      omega
    cases hq with
    | called h => exact hold (.called h)
    | burned h =>
      rcases List.mem_append.mp h with h | h
      · exact hold (.burned h)
      · rw [List.mem_singleton.mp h]
        have := hi.counter
        simp only [SymbolSealer.nextSeq]
        omega
    | held j h => exact hold (.held j h)
  · intro q hq
    rcases List.mem_append.mp hq with hq | hq
    · exact hi.burnedUnused q hq
    · rw [List.mem_singleton.mp hq]
      exact fun h => hnew _ (.called h) rfl
  · intro j q hq
    refine ⟨(hi.heldUnused j q hq).1, fun h => ?_⟩
    rcases List.mem_append.mp h with h | h
    · exact (hi.heldUnused j q hq).2 h
    · exact hnew q (.held j hq) (List.mem_singleton.mp h)

theorem inv_build {s : State ι} (hi : Inv s) {i : ι} {a : Args} {seq : UInt64}
    (h : s.pc i = .allocated a seq) :
    Inv { s with pc := Function.update s.pc i (.built a seq (a.written seq)) } := by
  have hheld : ∀ j q, (Function.update s.pc i (.built a seq (a.written seq)) j).held = some q →
      (s.pc j).held = some q := by
    intro j q hq
    rcases held_update hq with ⟨hj, hq⟩ | ⟨-, hq⟩
    · rw [hj, h]; exact hq
    · exact hq
  refine ⟨hi.counter, ?_, hi.distinct, hi.burnedUnused,
    fun j q hq => hi.heldUnused j q (hheld j q hq),
    fun j k q hj hk => hi.heldOnce j k q (hheld j q hj) (hheld k q hk), hi.nonce, ?_⟩
  · intro q hq
    cases hq with
    | called h => exact hi.below q (.called h)
    | burned h => exact hi.below q (.burned h)
    | held j h => exact hi.below q (.held j (hheld j q h))
  · intro j a' seq' out hb
    rcases built_update hb with hb | hb
    · cases hb
      rfl
    · exact hi.built j a' seq' out hb

theorem inv_sealInPlace {s : State ι} (hi : Inv s) {i : ι} {a : Args} {seq : UInt64} {out : Octets}
    (h : s.pc i = .built a seq out) (ok : Bool) :
    Inv { s with
      pc := Function.update s.pc i .idle
      calls := s.calls ++ [⟨seqNonce seq, (out.drop a.out.length).take headerLen, ok⟩] } := by
  obtain rfl := hi.built i a seq out h
  have hown : (s.pc i).held = some seq := by rw [h]; rfl
  have hseq := seq_written a seq
  have hmem : ∀ q, q ∈ (s.calls ++ [SealCall.mk (seqNonce seq)
      (((a.written seq).drop a.out.length).take headerLen) ok]).map SealCall.seq →
      q ∈ s.calls.map SealCall.seq ∨ q = seq := by
    intro q hq
    rw [List.map_append, List.mem_append] at hq
    rcases hq with hq | hq
    · exact .inl hq
    · exact .inr ((List.mem_singleton.mp hq).trans hseq)
  -- Afterwards the others hold what they held, and the caller nothing.
  have hheld : ∀ j q, (Function.update s.pc i .idle j).held = some q →
      j ≠ i ∧ (s.pc j).held = some q := by
    intro j q hq
    rcases held_update hq with ⟨-, hq⟩ | hq
    · cases hq
    · exact hq
  refine ⟨hi.counter, ?_, ?_, ?_, ?_, ?_, ?_, ?_⟩
  · intro q hq
    cases hq with
    | called hq =>
      rcases hmem q hq with hq | rfl
      · exact hi.below q (.called hq)
      · exact hi.below q (.held i hown)
    | burned hq => exact hi.below q (.burned hq)
    | held j hq => exact hi.below q (.held j (hheld j q hq).2)
  · rw [List.map_append, List.nodup_append_comm]
    refine hi.distinct.cons fun hmem => (hi.heldUnused i seq hown).1 ?_
    rw [← hseq]
    exact hmem
  · intro q hq hc
    rcases hmem q hc with hc | rfl
    · exact hi.burnedUnused q hq hc
    · exact (hi.heldUnused i q hown).2 hq
  · intro j q hq
    obtain ⟨hj, hq'⟩ := hheld j q hq
    refine ⟨fun hc => ?_, (hi.heldUnused j q hq').2⟩
    rcases hmem q hc with hc | rfl
    · exact (hi.heldUnused j q hq').1 hc
    · exact hj (hi.heldOnce j i q hq' hown)
  · intro j k q hj hk
    exact hi.heldOnce j k q (hheld j q hj).2 (hheld k q hk).2
  · intro c hc
    rcases List.mem_append.mp hc with hc | hc
    · exact hi.nonce c hc
    · rw [List.mem_singleton.mp hc]
      exact congrArg seqNonce hseq.symm
  · intro j a' seq' out hb
    rcases built_update hb with hb | hb
    · cases hb
    · exact hi.built j a' seq' out hb

theorem inv_step {s s' : State ι} (h : Step s s') (hlt : s'.allocations < 2 ^ 64) (hi : Inv s) :
    Inv s' := by
  cases h with
  | allocate i a h => exact inv_allocate hi hlt i a
  | build i h => exact inv_build hi h
  | sealInPlace i enc h => exact inv_sealInPlace hi h _
  | burnSeq i h => exact inv_burnSeq hi hlt

theorem allocations_le {s s' : State ι} (h : Step s s') : s.allocations ≤ s'.allocations := by
  cases h <;> simp

/-- **No nonce is reused.** In every state that any number of callers reach
with fewer than `2^64` allocations, whatever their AEAD calls return: the
nonces are pairwise distinct, each is the nonce of the number written in its
datagram's clear header, two calls never share a number (so one whose call
failed is not used again), and no burned number is used. -/
theorem nonces_distinct {s : State ι} (hs : Runs.Reachable Init Step s)
    (hlt : s.allocations < 2 ^ 64) :
    (s.calls.map SealCall.nonce).Nodup ∧
      (∀ c ∈ s.calls, c.nonce = seqNonce (wireSeq c.aad)) ∧
      (s.calls.map fun c => wireSeq c.aad).Nodup ∧
      ∀ c ∈ s.calls, wireSeq c.aad ∉ s.burned := by
  have hinv : s.allocations < 2 ^ 64 → Inv s := by
    refine hs.invariant (I := fun s => s.allocations < 2 ^ 64 → Inv s) (fun s h _ => inv_init h) ?_
    intro s s' hI hstep hlt
    exact inv_step hstep hlt (hI (lt_of_le_of_lt (allocations_le hstep) hlt))
  have hi := hinv hlt
  have hmap : s.calls.map SealCall.nonce = (s.calls.map SealCall.seq).map seqNonce := by
    rw [List.map_map]
    exact List.map_congr_left hi.nonce
  refine ⟨?_, hi.nonce, hi.distinct, fun c hc hb => ?_⟩
  · rw [hmap]
    exact hi.distinct.map fun _ _ => seqNonce_inj
  · exact hi.burnedUnused _ hb (List.mem_map_of_mem hc)

/-- Two callers that allocate before either seals, one of whose calls fails,
and a burned number: the numbers used are `1` and `0`, and `2` is not. -/
theorem nonces_distinct_two_callers :
    ∃ s : State Bool, Runs.Reachable Init Step s ∧
      s.calls.map (fun c => (wireSeq c.aad, c.ok)) = [(1, false), (0, true)] ∧ s.burned = [2] ∧
      (s.calls.map SealCall.nonce).Nodup := by
  let s₀ : State Bool := ⟨.new, fun _ => .idle, [], [], 0⟩
  have h₀ : Runs.Reachable Init Step s₀ := .start ⟨rfl, fun _ => rfl, rfl, rfl, rfl⟩
  have h₁ := h₀.next (.allocate true ⟨7, 0, [1], []⟩ rfl)
  have h₂ := h₁.next (.allocate false ⟨7, 1, [2], [9]⟩ rfl)
  have h₃ := h₂.next (.build false rfl)
  have h₄ := h₃.next (.build true rfl)
  have h₅ := h₄.next (.sealInPlace false (fun _ _ _ => none) rfl)
  have h₆ := h₅.next (.burnSeq false rfl)
  have h₇ := h₆.next (.sealInPlace true (fun _ _ body => some (body, [])) rfl)
  exact ⟨_, h₇, by decide, by decide, (nonces_distinct h₇ (by decide)).1⟩

end SharedSealer

end AtpExperiment
