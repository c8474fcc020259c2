/-
One `SymbolOpener` shared by any number of callers.

`open_datagram` looks at the header by itself, takes the mutex of the replay
window, and checks the number, decrypts and commits with it held; `seq_span` reads
the window under it. A panic inside poisons the mutex, and `expect` then panics in
every later call. The steps of one caller run by themselves are `openDatagram` and
`seqSpan` (`runs_iff`).

`opener_linearizable`: in any interleaving the calls take effect one after the
other, so no number is accepted twice, by whichever callers.
-/
import AtpExperiment.Lib.Guarded
import AtpExperiment.ReplayLimits
import AtpExperiment.SealedFacts

namespace AtpExperiment

open Octets Aead Sealed Guarded

namespace SharedOpener

/-- A call: `open_datagram` or `seq_span`. -/
inductive Call
  | openDatagram (transferTag : UInt64) (buf : Octets)
  | seqSpan
  deriving DecidableEq

/-- What it returns. -/
inductive Answer
  | opened (r : Option (UInt32 × Octets))
  | span (q : Option UInt64)
  deriving DecidableEq

/-- The arguments of `open_in_place`. -/
structure Parts where
  seq : UInt64
  aad : Octets
  body : Octets
  tag : Octets
  deriving DecidableEq

/-- Where a call is while it holds the mutex. -/
inductive Loc
  /-- At `would_accept`. -/
  | check (p : Parts)
  /-- At the AEAD call. -/
  | decrypt (p : Parts)
  /-- At `commit`, with the body in the clear. -/
  | commit (seq : UInt64) (plain : Octets)
  | span
  deriving DecidableEq

/-- The parts of a datagram, as `open_datagram` splits it. -/
def parts (buf : Octets) : Parts :=
  let tagStart := buf.length - tagLen
  ⟨wireSeq buf, (buf.take tagStart).take headerLen, (buf.take tagStart).drop headerLen,
    buf.drop tagStart⟩

/-- The block index and the packet in a body. -/
def split (plain : Octets) : UInt32 × Octets :=
  (UInt32.ofNat (fromLe (plain.take 4)), plain.drop 4)

/-- Before the mutex is taken: the header and the length of the tag. -/
def enter : Call → Answer ⊕ Loc
  | .openDatagram transferTag buf =>
    if buf.length < overhead + 4 ∨ buf.take 4 ≠ magic then .inl (.opened none)
    else if wireTag buf ≠ transferTag then .inl (.opened none)
    else if (parts buf).tag.length ≠ tagLen then .inl (.opened none)
    else .inr (.check (parts buf))
  | .seqSpan => .inr .span

theorem enter_openDatagram (t : UInt64) (buf : Octets) :
    enter (.openDatagram t buf) = .inl (.opened none) ∨
      enter (.openDatagram t buf) = .inr (.check (parts buf)) := by
  simp only [enter]
  split
  · exact .inl rfl
  split
  · exact .inl rfl
  split
  · exact .inl rfl
  · exact .inr rfl

/-- A step with the mutex held. -/
def step (dec : Decrypt) : Loc → ReplayWindow → Out ReplayWindow Loc Answer
  | .check p, w => if w.wouldAccept p.seq then .next (.decrypt p) w else .done (.opened none) w
  | .decrypt p, w =>
    match dec (seqNonce p.seq) p.aad p.body p.tag with
    | none => .done (.opened none) w
    | some plain => .next (.commit p.seq plain) w
  | .commit seq plain, w =>
    match w.commit seq with
    | .ok w => .done (.opened (some (split plain))) w
    | .error _ => .crash
  | .span, w =>
    match w.seqSpan with
    | .ok q => .done (.span q) w
    | .error _ => .crash

/-- `SymbolOpener`, the AEAD being any function. -/
def opener (dec : Decrypt) : Obj ReplayWindow Call Loc Answer := ⟨enter, step dec⟩

variable {dec : Decrypt}

/-! ## One call -/

/-- A call with nobody else inside. -/
def Alone (dec : Decrypt) (w : ReplayWindow) : Call → Answer → ReplayWindow → Prop
  | .openDatagram t buf, .opened r, w' => openDatagram dec w t buf = .ok (r, w')
  | .seqSpan, .span q, w' => w.seqSpan = .ok q ∧ w' = w
  | _, _, _ => False

theorem exec_span_iff {w w' : ReplayWindow} {a : Answer} :
    Exec (step dec) .span w a w' ↔ ∃ q, a = .span q ∧ w.seqSpan = .ok q ∧ w' = w := by
  cases hs : w.seqSpan with
  | ok q =>
    rw [exec_of_done (show step dec .span w = .done (.span q) w by simp only [step, hs])]
    constructor
    · rintro ⟨rfl, rfl⟩
      exact ⟨q, rfl, rfl, rfl⟩
    · rintro ⟨q', rfl, hq, rfl⟩
      cases hq
      exact ⟨rfl, rfl⟩
  | error p =>
    refine iff_of_false (not_exec_of_crash (by simp only [step, hs])) ?_
    rintro ⟨q, -, hq, -⟩
    cases hq

/-- From the check on, a call is `open_in_place`. -/
theorem exec_check_iff {p : Parts} (hp : p.tag.length = tagLen) {w w' : ReplayWindow}
    {a : Answer} : Exec (step dec) (.check p) w a w' ↔
      ∃ r, openInPlace dec w p.seq p.aad p.body p.tag = .ok (r, w') ∧
        a = .opened (r.toOption.map split) := by
  have hok : ∀ r w₁, openInPlace dec w p.seq p.aad p.body p.tag = .ok (r, w₁) →
      ((a = .opened (r.toOption.map split) ∧ w' = w₁) ↔
        ∃ r, openInPlace dec w p.seq p.aad p.body p.tag = .ok (r, w') ∧
          a = .opened (r.toOption.map split)) := by
    intro r w₁ h
    constructor
    · rintro ⟨rfl, rfl⟩
      exact ⟨r, h, rfl⟩
    · rintro ⟨r', h', rfl⟩
      cases h.symm.trans h'
      exact ⟨rfl, rfl⟩
  cases hacc : w.wouldAccept p.seq with
  | false =>
    rw [exec_of_done (show step dec (.check p) w = .done (.opened none) w by simp [step, hacc])]
    exact hok (.error .replay) w (by
      simp [openInPlace, hp, hacc, Checked.pure_eq_ok])
  | true =>
    rw [exec_of_next (show step dec (.check p) w = .next (.decrypt p) w by simp [step, hacc])]
    cases hdec : dec (seqNonce p.seq) p.aad p.body p.tag with
    | none =>
      rw [exec_of_done (show step dec (.decrypt p) w = .done (.opened none) w by
        simp only [step, hdec])]
      exact hok (.error .badTag) w (by
        simp [openInPlace, hp, hacc, hdec, Checked.pure_eq_ok])
    | some plain =>
      rw [exec_of_next (show step dec (.decrypt p) w = .next (.commit p.seq plain) w by
        simp only [step, hdec])]
      cases hcom : w.commit p.seq with
      | ok w₁ =>
        rw [exec_of_done (show step dec (.commit p.seq plain) w =
          .done (.opened (some (split plain))) w₁ by simp only [step, hcom])]
        exact hok (.ok plain) w₁ (by simp [openInPlace, hp, hacc, hdec, hcom])
      | error e =>
        refine iff_of_false (not_exec_of_crash (by simp only [step, hcom])) ?_
        rintro ⟨r, h, -⟩
        simp [openInPlace, hp, hacc, hdec, hcom] at h

theorem alone_none {w w' : ReplayWindow} {t : UInt64} {buf : Octets} {a : Answer}
    (h : openDatagram dec w t buf = .ok (none, w)) :
    Alone dec w (.openDatagram t buf) a w' ↔ a = .opened none ∧ w' = w := by
  cases a with
  | span q => simp [Alone]
  | opened r =>
    simp only [Alone, h, Except.ok.injEq, Prod.mk.injEq, Answer.opened.injEq]
    exact ⟨fun ⟨hr, hw⟩ => ⟨hr.symm, hw.symm⟩, fun ⟨hr, hw⟩ => ⟨hr.symm, hw.symm⟩⟩

/-- A call with nobody else inside is the sequential function. -/
theorem runs_iff {w w' : ReplayWindow} {c : Call} {a : Answer} :
    (opener dec).Runs c w a w' ↔ Alone dec w c a w' := by
  cases c with
  | seqSpan =>
    rw [Obj.runs_of_inr (show (opener dec).enter .seqSpan = .inr .span from rfl)]
    refine exec_span_iff.trans ?_
    cases a with
    | opened r => simp [Alone]
    | span q =>
      simp only [Alone, Answer.span.injEq]
      exact ⟨fun ⟨q', hq, h⟩ => hq ▸ h, fun h => ⟨q, rfl, h⟩⟩
  | openDatagram t buf =>
    by_cases hmagic : buf.length < overhead + 4 ∨ buf.take 4 ≠ magic
    · have he : (opener dec).enter (.openDatagram t buf) = .inl (.opened none) := if_pos hmagic
      rw [Obj.runs_of_inl he, alone_none (if_pos hmagic)]
    · by_cases htag : wireTag buf ≠ t
      · have he : (opener dec).enter (.openDatagram t buf) = .inl (.opened none) :=
          (if_neg hmagic).trans (if_pos htag)
        rw [Obj.runs_of_inl he, alone_none (by
          rw [openDatagram, if_neg hmagic, if_pos htag]
          rfl)]
      · have hlen : (parts buf).tag.length = tagLen := by
          have := (not_or.mp hmagic).1
          simp only [parts, List.length_drop, overhead, headerLen, tagLen] at this ⊢
          omega
        have he : (opener dec).enter (.openDatagram t buf) = .inr (.check (parts buf)) :=
          (if_neg hmagic).trans ((if_neg htag).trans (if_neg (not_not.mpr hlen)))
        rw [Obj.runs_of_inr he]
        refine (exec_check_iff hlen).trans ?_
        have hopen : openDatagram dec w t buf =
            (openInPlace dec w (parts buf).seq (parts buf).aad (parts buf).body (parts buf).tag >>=
              fun x => .ok (x.1.toOption.map split, x.2)) := by
          rw [openDatagram, if_neg hmagic, if_neg htag]
          simp only [parts]
          congr 1
          funext x
          rcases x with ⟨r | r, w₁⟩ <;> rfl
        cases a with
        | span q => simp [Alone]
        | opened r =>
          simp only [Alone, hopen, Checked.bind_eq_ok, Answer.opened.injEq, Except.ok.injEq,
            Prod.mk.injEq]
          constructor
          · rintro ⟨r', hr', rfl⟩
            exact ⟨(r', w'), hr', rfl, rfl⟩
          · rintro ⟨⟨r', w₁⟩, hr', rfl, rfl⟩
            exact ⟨r', hr', rfl⟩

/-! ## Numbers -/

/-- The number a call accepted. -/
def acceptedSeq : Call × Answer → Option UInt64
  | (.openDatagram _ buf, .opened (some _)) => some (wireSeq buf)
  | _ => none

/-- The numbers accepted, in order. -/
def accepted (xs : List (Call × Answer)) : List UInt64 := xs.filterMap acceptedSeq

theorem accepted_concat (xs : List (Call × Answer)) (x : Call × Answer) :
    accepted (xs ++ [x]) = accepted xs ++ (acceptedSeq x).toList := Runs.filterMap_concat ..

/-- One after the other, the calls accept every number once at most. -/
theorem sequential_holds {xs : List (Call × Answer)} {w : ReplayWindow}
    (h : (opener dec).Sequential .new xs w) : w.Holds (accepted xs) ∧ (accepted xs).Nodup := by
  induction h with
  | nil => exact ⟨ReplayWindow.holds_new, List.nodup_nil⟩
  | @snoc xs w w' c a _ hr ih =>
    obtain ⟨hw, hnodup⟩ := ih
    rw [accepted_concat]
    rw [runs_iff] at hr
    cases c with
    | seqSpan =>
      cases a with
      | opened r => exact hr.elim
      | span q =>
        obtain ⟨-, rfl⟩ := hr
        simpa only [acceptedSeq, Option.toList_none, List.append_nil] using ⟨hw, hnodup⟩
    | openDatagram t buf =>
      cases a with
      | span q => exact hr.elim
      | opened r =>
        cases r with
        | none =>
          obtain rfl := openDatagram_none hr
          simpa only [acceptedSeq, Option.toList_none, List.append_nil] using ⟨hw, hnodup⟩
        | some x =>
          obtain ⟨b, payload⟩ := x
          obtain ⟨ho⟩ := openDatagram_some hr
          have hfits := (hw.commit_ok_iff ho.accepted).mp ⟨w', ho.committed⟩
          obtain ⟨w₁, hcom, hw₁⟩ := hw.commit hfits ho.accepted
          cases hcom.symm.trans ho.committed
          have hnew : wireSeq buf ∉ accepted xs := by
            intro hmem
            cases (hw.not_wouldAccept hmem).symm.trans ho.accepted
          refine ⟨hw₁, ?_⟩
          rw [acceptedSeq, Option.toList_some, List.nodup_append_comm]
          exact hnodup.cons hnew

/-! ## Panics -/

/-- The window holds numbers below `u64::MAX`. -/
def Low (w : ReplayWindow) : Prop := ∃ acc, w.Holds acc ∧ ∀ q ∈ acc, q < u64Max

/-- Number `u64::MAX` does not authenticate with these parts. -/
def Parts.Low (dec : Decrypt) (p : Parts) : Prop :=
  p.seq = u64Max → dec (seqNonce u64Max) p.aad p.body p.tag = none

/-- A call that does not bring number `u64::MAX`, authenticated. -/
def Call.Low (dec : Decrypt) : Call → Prop
  | .openDatagram _ buf => (parts buf).Low dec
  | .seqSpan => True

/-- What is known inside the mutex, when only such calls come. -/
def LowAt (dec : Decrypt) : Loc → ReplayWindow → Prop
  | .check p, w => Low w ∧ p.Low dec
  | .span, w => Low w
  | .decrypt p, w => Low w ∧ w.wouldAccept p.seq = true ∧ p.Low dec
  | .commit seq _, w => Low w ∧ w.wouldAccept seq = true ∧ seq < u64Max

theorem Low.commit {w : ReplayWindow} (h : Low w) {seq : UInt64}
    (hacc : w.wouldAccept seq = true) (hlt : seq < u64Max) :
    ∃ w', w.commit seq = .ok w' ∧ Low w' := by
  obtain ⟨acc, hw, hacc'⟩ := h
  obtain ⟨w', hcom, hw'⟩ := hw.commit (.inl hlt) hacc
  refine ⟨w', hcom, acc ++ [seq], hw', fun q hq => ?_⟩
  rcases List.mem_append.mp hq with hq | hq
  · exact hacc' q hq
  · rwa [List.mem_singleton.mp hq]

theorem Low.seqSpan {w : ReplayWindow} (h : Low w) : ∃ q, w.seqSpan = .ok q := by
  rw [ReplayWindow.seqSpan_ok_iff]
  rintro ⟨hp, hmax⟩
  obtain ⟨acc, hw, hacc⟩ := h
  rcases hw with ⟨hp', -⟩ | ⟨-, hmem, -⟩
  · cases hp.symm.trans hp'
  · exact absurd hmax (UInt64.ne_of_lt (hacc _ hmem))

theorem Parts.Low.lt {p : Parts} (h : p.Low dec) {plain : Octets}
    (hdec : dec (seqNonce p.seq) p.aad p.body p.tag = some plain) : p.seq < u64Max := by
  by_contra hlt
  have hmax := ReplayWindow.eq_max_of_not_lt hlt
  rw [hmax, h hmax] at hdec
  cases hdec

theorem LowAt.next_or_done {l : Loc} {w : ReplayWindow} (h : LowAt dec l w) :
    (∃ l' w', step dec l w = .next l' w' ∧ LowAt dec l' w') ∨
      ∃ r w', step dec l w = .done r w' ∧ Low w' := by
  cases l with
  | check p =>
    simp only [step]
    split
    · next hacc => exact .inl ⟨_, _, rfl, h.1, hacc, h.2⟩
    · exact .inr ⟨_, _, rfl, h.1⟩
  | decrypt p =>
    simp only [step]
    split
    · exact .inr ⟨_, _, rfl, h.1⟩
    · next plain hdec => exact .inl ⟨_, _, rfl, h.1, h.2.1, h.2.2.lt hdec⟩
  | commit seq plain =>
    obtain ⟨w', hcom, hw'⟩ := h.1.commit h.2.1 h.2.2
    simp only [step, hcom]
    exact .inr ⟨_, _, rfl, hw'⟩
  | span =>
    obtain ⟨q, hq⟩ := h.seqSpan
    simp only [step, hq]
    exact .inr ⟨_, _, rfl, h⟩

/-- Calls that bring no authenticated `u64::MAX` do not panic. -/
theorem safe_opener (dec : Decrypt) : Safe (opener dec) (Call.Low dec) Low (LowAt dec) where
  enter {c l w} hc he hw := by
    cases c with
    | seqSpan =>
      cases he
      exact hw
    | openDatagram t buf =>
      rcases enter_openDatagram t buf with he' | he' <;> cases he'.symm.trans he
      exact ⟨hw, hc⟩
  next {l l' w w'} hl hs := by
    rcases hl.next_or_done with ⟨_, _, hs', hl'⟩ | ⟨_, _, hs', -⟩ <;> cases hs'.symm.trans hs
    exact hl'
  done {l w w' r} hl hs := by
    rcases hl.next_or_done with ⟨_, _, hs', -⟩ | ⟨_, _, hs', hw'⟩ <;> cases hs'.symm.trans hs
    exact hw'
  crash {l w} hl hs := by
    rcases hl.next_or_done with ⟨_, _, hs', -⟩ | ⟨_, _, hs', -⟩ <;> cases hs'.symm.trans hs

/-! ## Any number of callers -/

/-- Calls made one after the other. -/
inductive Replayed (dec : Decrypt) : List (Call × Answer) → ReplayWindow → Prop
  | nil : Replayed dec [] .new
  | snoc {xs : List (Call × Answer)} {w w' : ReplayWindow} {c : Call} {a : Answer}
      (h : Replayed dec xs w) (ha : Alone dec w c a w') : Replayed dec (xs ++ [(c, a)]) w'

theorem replayed_of_sequential {xs : List (Call × Answer)} {w : ReplayWindow}
    (h : (opener dec).Sequential .new xs w) : Replayed dec xs w := by
  induction h with
  | nil => exact .nil
  | snoc _ hr ih => exact ih.snoc (runs_iff.mp hr)

variable {ι : Type} [DecidableEq ι]

theorem accepted_of_poisoned {s s' : State ReplayWindow Call Loc Answer ι}
    (hi : Inv (opener dec) .new s) (hp : s.poisoned = true)
    (h : Relation.ReflTransGen (Step (opener dec)) s s') :
    accepted (points s'.hist) = accepted (points s.hist) := by
  have key : Inv (opener dec) .new s' ∧ s'.poisoned = true ∧
      accepted (points s'.hist) = accepted (points s.hist) := by
    induction h with
    | refl => exact ⟨hi, hp, rfl⟩
    | tail _ hst ih =>
      obtain ⟨hi', hp', hacc⟩ := ih
      obtain ⟨hp'', hpoints⟩ := hst.of_poisoned hi' hp'
      refine ⟨hi'.step hst, hp'', ?_⟩
      rcases hpoints with he | ⟨c, a, he, hpoints⟩
      · rw [he, hacc]
      · have hnone : acceptedSeq (c, a) = none := by
          cases c with
          | seqSpan => rfl
          | openDatagram t buf =>
            rcases enter_openDatagram t buf with he' | he' <;> cases he'.symm.trans he
            rfl
        rw [hpoints, accepted_concat, hnone, Option.toList_none, List.append_nil, hacc]
  exact key.2.2

/-- **A shared opener works as one at a time.** For any number of callers of
`open_datagram` and `seq_span` on one opener, any AEAD and any interleaving of
their steps: the calls take effect one after the other, each between its call and
its return and with the answer it returns, as `open_datagram` and `seq_span` by
themselves; so no number is accepted twice, whoever the callers are. After a panic
inside the mutex no datagram is accepted any more, and it has one cause: a datagram
numbered `u64::MAX` that authenticates was handed to `open_datagram`. -/
theorem opener_linearizable (dec : Decrypt) {s : State ReplayWindow Call Loc Answer ι}
    (h : Runs.Reachable (Init .new) (Step (opener dec)) s) :
    (∃ w, Replayed dec (points s.hist) w ∧
      (s.holder = none → s.poisoned = false → s.shared = w)) ∧
    (∀ i, ∃ es, Whole i es ∧ eventsOf i s.hist = es ++ (s.pc i).trail i) ∧
    (accepted (points s.hist)).Nodup ∧
    (s.poisoned = true → ∀ s', Relation.ReflTransGen (Step (opener dec)) s s' →
      accepted (points s'.hist) = accepted (points s.hist)) ∧
    (s.poisoned = true → ∃ i t buf plain, .call i (.openDatagram t buf) ∈ s.hist ∧
      wireSeq buf = u64Max ∧
      dec (seqNonce u64Max) (parts buf).aad (parts buf).body (parts buf).tag = some plain) := by
  have hi := inv_of_reachable h
  obtain ⟨w, hseq, hcur⟩ := hi.points
  refine ⟨⟨w, replayed_of_sequential hseq, fun hfree hp => ?_⟩, hi.trails,
    (sequential_holds hseq).2, fun hp s' => accepted_of_poisoned hi hp, fun hp => ?_⟩
  · rcases hcur with hp' | ⟨i, _, _, _, hi', -⟩ | ⟨-, hw⟩
    · cases hp.symm.trans hp'
    · cases hfree.symm.trans hi'
    · exact hw
  · obtain ⟨i, c, hmem, hlow⟩ :=
      (safe_opener dec).exists_call ⟨[], ReplayWindow.holds_new, by simp⟩ h hp
    cases c with
    | seqSpan => exact absurd trivial hlow
    | openDatagram t buf =>
      obtain ⟨hmax, hsome⟩ := Classical.not_imp.mp hlow
      obtain ⟨plain, hplain⟩ := Option.ne_none_iff_exists'.mp hsome
      exact ⟨i, t, buf, plain, hmem, hmax, hplain⟩

/-- A datagram with an empty packet. -/
def emptyDatagram (seq : UInt64) : Octets := header 7 seq ++ List.replicate 20 0

/-- An AEAD under which everything authenticates. -/
def anyDecrypt : Decrypt := fun _ _ body _ => some body

/-- Two callers have the same datagram: the second waits for the mutex, and then the
number has been seen. The first goes on with number `u64::MAX`, and its `seq_span`
poisons the mutex. -/
theorem opener_two_callers : ∃ s : State ReplayWindow Call Loc Answer Bool,
    Runs.Reachable (Init .new) (Step (opener anyDecrypt)) s ∧
    (points s.hist).map Prod.snd =
      [.opened (some (0, [])), .opened none, .opened (some (0, []))] ∧
    (accepted (points s.hist)).Nodup ∧ s.poisoned = true ∧
    ∃ i t buf plain, .call i (.openDatagram t buf) ∈ s.hist ∧ wireSeq buf = u64Max ∧
      anyDecrypt (seqNonce u64Max) (parts buf).aad (parts buf).body (parts buf).tag =
        some plain := by
  let p : Parts := parts (emptyDatagram 0)
  have henter : enter (.openDatagram 7 (emptyDatagram 0)) = .inr (.check p) := by rfl
  have hcheck : step anyDecrypt (.check p) .new = .next (.decrypt p) .new := rfl
  have hdecrypt : step anyDecrypt (.decrypt p) .new = .next (.commit p.seq p.body) .new := rfl
  have hseq : p.seq = 0 := by decide
  have hcommit : step anyDecrypt (.commit p.seq p.body) .new =
      .done (.opened (some (0, []))) (.single 0) := by
    have hcom : ReplayWindow.new.commit 0 = .ok (.single 0) := by decide +kernel
    simp only [step, hseq, hcom]
    rfl
  have hseen : step anyDecrypt (.check p) (.single 0) = .done (.opened none) (.single 0) := by
    have hno : (ReplayWindow.single 0).wouldAccept 0 = false := by decide +kernel
    simp [step, hseq, hno]
  have hlast : Alone anyDecrypt (.single 0) (.openDatagram 7 (emptyDatagram u64Max))
      (.opened (some (0, []))) (.single u64Max) := by
    show openDatagram _ _ _ _ = _
    decide +kernel
  have hcrash : step anyDecrypt .span (.single u64Max) = .crash := by
    have hspan : (ReplayWindow.single u64Max).seqSpan = .error .overflow := by decide +kernel
    simp only [step, hspan]
  let s₀ : State ReplayWindow Call Loc Answer Bool := ⟨.new, none, false, fun _ => .idle, []⟩
  have h₀ : Runs.Reachable (Init .new) (Step (opener anyDecrypt)) s₀ :=
    .start ⟨rfl, rfl, rfl, fun _ => rfl, rfl⟩
  have h₁ := h₀.next (.call true (.openDatagram 7 (emptyDatagram 0)) rfl)
  have h₂ := h₁.next (.lock true rfl henter rfl rfl)
  have h₃ := h₂.next (.call false (.openDatagram 7 (emptyDatagram 0)) rfl)
  have h₄ := h₃.next (.next true rfl hcheck)
  have h₅ := h₄.next (.next true rfl hdecrypt)
  have h₆ := h₅.next (.point true rfl hcommit)
  have h₇ := h₆.next (.unlock true rfl)
  have h₈ := h₇.next (.lock false rfl henter rfl rfl)
  have h₉ := h₈.next (.point false rfl hseen)
  have h₁₀ := (h₉.next (.unlock false rfl)).next (.ret true rfl)
  have h₁₁ := reachable_alone h₁₀ (i := true) rfl rfl rfl (runs_iff.mpr hlast)
  have h₁₂ := h₁₁.next (.call true .seqSpan rfl)
  have h₁₃ := h₁₂.next (.lock true (l := .span) rfl rfl rfl rfl)
  have h₁₄ := h₁₃.next (.crash true rfl hcrash)
  have hlin := opener_linearizable anyDecrypt h₁₄
  exact ⟨_, h₁₄, rfl, hlin.2.2.1, rfl, hlin.2.2.2.2 rfl⟩

end SharedOpener

end AtpExperiment
