/-
The receiver by itself, for any control frames, any datagrams and any AEAD.

`RecvStep.live` says what a step can do to the transfer's values, and
`RecvStep.ends` how a step gets past the collection loop. `RecvInv` is what
follows over whole runs: BlockDecoded is written only for blocks that
are Done, and Ok is returned, or a Done frame with `ok = true` written, only
when every block is Done and the streamed hash of the file is the manifest's
(`RecvState.Verified`).
-/
import AtpExperiment.CollectInv
import AtpExperiment.Recv

namespace AtpExperiment

open Octets Aead Duplex

variable {rq : Raptorq} {sha : Sha256} {plane : RxPlane} {dec : Decrypt}

/-! ## The transfer's values -/

/-- Before the output file is created. -/
def RecvPc.early : RecvPc → Bool
  | .hello | .reject _ | .bind .. | .helloAck .. | .manifest _ | .create .. => true
  | _ => false

/-- After the collection loop, before the verdict. -/
def RecvPc.left : RecvPc → Bool
  | .sync | .hash | .report => true
  | _ => false

/-- What a step can do to the transfer's values. -/
inductive LiveStep (plane : RxPlane) (dec : Decrypt) (s s' : RecvState rq) : Prop
  | same (h : s'.live = s.live)
  | create {t : UInt64} {m : Accepted} (hpc : s.pc = .create t m)
      (h : s'.live = some ⟨t, m.sha256, m.layout, .new rq plane m.layout⟩)
  | moved {x : Live rq} {c : Collect rq} {dgram : Octets} (hx : s.live = some x)
      (hm : x.col.Moved dec x.layout x.transferTag dgram c)
      (h : s'.live = some { x with col := c })
  | acked {x : Live rq} {b : UInt32} {bs : List UInt32} (hx : s.live = some x)
      (hb : x.col.pendingAcks = b :: bs)
      (h : s'.live = some { x with col := { x.col with pendingAcks := bs } })
  | ticked {x : Live rq} {ticks : UInt32} (hx : s.live = some x)
      (h : s'.live = some { x with col := { x.col with ticks } })

theorem RecvStep.live {s s' : RecvState rq} {a : Act Frame} (h : RecvStep sha plane dec s a s') :
    LiveStep plane dec s s' := by
  cases h with
  | create h => exact .create h rfl
  | datagram h hx dgram w hc => exact .moved hx (Collect.onDatagram_moved hc) rfl
  | ack h hx hb => exact .acked hx hb rfl
  | tick h hx _ _ hf | tickQuiet h hx _ _ hf =>
    obtain ⟨-, ticks, -, rfl⟩ := Collect.onTick_eq_ok.mp hf
    exact .ticked hx rfl
  | _ => exact .same rfl

/-- A property of the transfer's values that holds as they are made, and that
datagrams, acks and ticks keep. -/
theorem LiveStep.invariant {s s' : RecvState rq} (h : LiveStep plane dec s s')
    (P : Live rq → Prop) (hs : ∀ x, s.live = some x → P x)
    (hcreate : ∀ t m, s.pc = .create t m → P ⟨t, m.sha256, m.layout, .new rq plane m.layout⟩)
    (hmoved : ∀ x c dgram, s.live = some x → x.col.Moved dec x.layout x.transferTag dgram c → P x →
      P { x with col := c })
    (hacked : ∀ x b bs, x.col.pendingAcks = b :: bs → P x →
      P { x with col := { x.col with pendingAcks := bs } })
    (hticked : ∀ x ticks, P x → P { x with col := { x.col with ticks } }) :
    ∀ x, s'.live = some x → P x := by
  intro x hx
  cases h with
  | same h => exact hs x (by rw [← h, hx])
  | create hpc h =>
    cases hx.symm.trans h
    exact hcreate _ _ hpc
  | moved hy hm h =>
    cases hx.symm.trans h
    exact hmoved _ _ _ hy hm (hs _ hy)
  | acked hy hb h =>
    cases hx.symm.trans h
    exact hacked _ _ _ hb (hs _ hy)
  | ticked hy h =>
    cases hx.symm.trans h
    exact hticked _ _ (hs _ hy)

namespace RecvState

/-- Block `b` is Done. -/
def DoneAt (s : RecvState rq) (b : UInt32) : Prop :=
  ∃ x, s.live = some x ∧ x.col.blocks[b.toNat]? = some .done

/-- Every block is Done, and the hash of the file, streamed over the reads
`sha256_file` made, is the manifest's. -/
def Verified (sha : Sha256) (s : RecvState rq) : Prop :=
  ∃ x chunks, s.live = some x ∧ x.col.blocks.length = x.layout.numBlocks.toNat ∧
    (∀ b, b < x.layout.numBlocks → x.col.blocks[b.toNat]? = some .done) ∧
    ReadsOf x.col.file chunks ∧ s.actual = some (sha256File sha chunks) ∧
    sha256File sha chunks = x.sha256

end RecvState

open RecvState

/-- The receiver's own invariant. -/
structure RecvInv (sha : Sha256) (s : RecvState rq) : Prop where
  early : s.pc.early = true → s.live = none
  col : ∀ x, s.live = some x → x.col.Inv x.layout
  left : s.pc.left = true → ∃ x, s.live = some x ∧ ¬ x.col.decoded < x.layout.numBlocks
  hashed : s.pc = .report → ∃ x chunks, s.live = some x ∧ ReadsOf x.col.file chunks ∧
    s.actual = some (sha256File sha chunks)
  acked : ∀ b, .blockDecoded b ∈ s.wrote → s.DoneAt b
  verified : s.pc = .returned (.ok ()) → s.Verified sha
  done : ∀ e, .done true e ∈ s.wrote → s.Verified sha ∧ ∃ r, s.pc = .returned r

theorem recvInv_init (sha : Sha256) : RecvInv sha (RecvState.init rq) where
  early _ := rfl
  col x h := by cases h
  left h := by cases h
  hashed h := by cases h
  acked b h := by cases h
  verified h := by cases h
  done e h := by cases h

theorem RecvStep.doneAt {s s' : RecvState rq} {a : Act Frame} (h : RecvStep sha plane dec s a s')
    (hi : RecvInv sha s) {b : UInt32} (hd : s.DoneAt b) : s'.DoneAt b := by
  obtain ⟨x, hx, hb⟩ := hd
  cases h.live with
  | same h => exact ⟨x, by rw [h, hx], hb⟩
  | create hpc h =>
    rw [hi.early (by rw [hpc]; rfl)] at hx
    cases hx
  | moved hx' hm h =>
    cases hx.symm.trans hx'
    exact ⟨_, h, hm.done_mono hb⟩
  | acked hx' hbs h =>
    cases hx.symm.trans hx'
    exact ⟨_, h, hb⟩
  | ticked hx' h =>
    cases hx.symm.trans hx'
    exact ⟨_, h, hb⟩

theorem RecvStep.col {s s' : RecvState rq} {a : Act Frame} (h : RecvStep sha plane dec s a s')
    (hi : RecvInv sha s) : ∀ x, s'.live = some x → x.col.Inv x.layout := by
  refine h.live.invariant (fun x => x.col.Inv x.layout) hi.col ?_ ?_ ?_ ?_
  · intro t m _
    exact Collect.inv_new rq plane _
  · intro x c dgram _ hm hc
    exact hm.inv hc
  · intro x b bs hb hc
    exact hc.of_eq rfl rfl rfl rfl fun b' hb' => by rw [hb]; exact .tail _ hb'
  · intro x ticks hc
    exact hc.of_eq rfl rfl rfl rfl fun b hb => hb

/-- The frames a step writes are recorded, and only they. -/
theorem RecvStep.wrote {s s' : RecvState rq} {a : Act Frame} (h : RecvStep sha plane dec s a s') :
    (∃ f ok, a = .write f ok ∧ s'.wrote = s.wrote ++ [f]) ∨
      (∀ f ok, a ≠ .write f ok) ∧ s'.wrote = s.wrote := by
  cases h with
  | reject | helloAck | manifestAck | ack | tick | done => exact .inl ⟨_, _, rfl, rfl⟩
  | _ => exact .inr ⟨fun _ _ => nofun, rfl⟩

theorem RecvStep.wrote_mono {s s' : RecvState rq} {a : Act Frame}
    (h : RecvStep sha plane dec s a s') {f : Frame} (hf : f ∈ s.wrote ∨ ∃ ok, a = .write f ok) :
    f ∈ s'.wrote := by
  rcases h.wrote with ⟨g, ok, rfl, hw⟩ | ⟨hne, hw⟩
  · rw [hw, List.mem_append, List.mem_singleton]
    exact hf.imp_right fun ⟨_, he⟩ => (Act.write.inj he).1.symm
  · rw [hw]
    exact hf.resolve_right fun ⟨ok, he⟩ => hne f ok he

/-! ## The handshake -/

theorem onHello_cases (f : Frame) :
    (∃ t port, f = .hello version t port ∧ onHello f = .bind t port) ∨
    (∃ msg, (∀ t port, f ≠ .hello version t port) ∧ onHello f = .reject msg) ∨
    ∃ e, onHello f = .returned (.error e) := by
  cases f with
  | hello v t port =>
    by_cases hv : v = version
    · subst hv
      exact .inl ⟨t, port, rfl, by simp [onHello]⟩
    · refine .inr (.inl ⟨_, fun t' port' he => ?_, if_pos hv⟩)
      cases he
      exact hv rfl
  | _ => exact .inr (.inr ⟨_, rfl⟩)

theorem onManifest_cases (t : UInt64) (f : Frame) :
    (∃ m name fileSize blockSize symbolSize numBlocks,
      f = .manifest name fileSize m.sha256 blockSize symbolSize numBlocks ∧
      Layout.new fileSize blockSize symbolSize = .ok m.layout ∧ onManifest t f = .create t m) ∨
    (∃ e, onManifest t f = .returned (.error e)) ∨ onManifest t f = .panicked := by
  cases f with
  | manifest name fileSize sha256 blockSize symbolSize numBlocks =>
    simp only [onManifest]
    split
    · exact .inr (.inr rfl)
    · exact .inr (.inl ⟨_, rfl⟩)
    · next m hm =>
      simp only [acceptManifest] at hm
      split at hm
      · cases hm
      simp only [Checked.bind_eq_ok] at hm
      obtain ⟨l, hl, hm⟩ := hm
      split at hm
      · cases hm
      · cases hm
        exact .inl ⟨_, _, _, _, _, _, rfl, hl, rfl⟩
  | _ => exact .inr (.inl ⟨_, rfl⟩)

/-! ## The invariant -/

theorem RecvStep.early {s s' : RecvState rq} {a : Act Frame} (h : RecvStep sha plane dec s a s')
    (hi : RecvInv sha s) (he : s'.pc.early = true) : s'.live = none := by
  cases h with
  | hello h | bindPush h | bindPull h | helloAck h | manifest h => exact hi.early (by rw [h]; rfl)
  | datagram h | tickQuiet h => simp [setCol, h, RecvPc.early] at he
  | @manifestAck ok | @ack _ _ _ ok | @tick _ _ _ _ _ _ _ ok | @done _ _ ok => cases ok <;> cases he
  | _ => cases he

theorem verdict_eq_none {sha256 actual : String} :
    verdict sha256 actual = none ↔ actual = sha256 := by
  unfold verdict
  split <;> simp_all

/-- After the collection loop, up to a return of Ok. -/
def RecvPc.ended : RecvPc → Bool
  | .sync | .hash | .report | .returned (.ok ()) => true
  | _ => false

theorem RecvPc.ended_of_left {pc : RecvPc} (h : pc.left = true) : pc.ended = true := by
  cases pc with
  | sync | hash | report => rfl
  | _ => cases h

/-- How the transfer gets from the loop to a return of Ok. -/
inductive EndStep (sha : Sha256) (s s' : RecvState rq) : Prop
  | leave {x : Live rq} (hx : s.live = some x) (hd : ¬ x.col.decoded < x.layout.numBlocks)
      (hl : s'.live = s.live) (hpc : s'.pc = .sync)
  | sync (h : s.pc = .sync) (hl : s'.live = s.live) (hpc : s'.pc = .hash)
  | hash {x : Live rq} {chunks : List Octets} (h : s.pc = .hash) (hx : s.live = some x)
      (hr : ReadsOf x.col.file chunks) (hl : s'.live = s.live)
      (ha : s'.actual = some (sha256File sha chunks)) (hpc : s'.pc = .report)
  | done {x : Live rq} (h : s.pc = .report) (hx : s.live = some x)
      (ha : s.actual = some x.sha256) (hl : s'.live = s.live) (ha' : s'.actual = s.actual)
      (hpc : s'.pc = .returned (.ok ()))

theorem RecvStep.ends {s s' : RecvState rq} {a : Act Frame} (h : RecvStep sha plane dec s a s')
    (he : s'.pc.ended = true) : EndStep sha s s' := by
  cases h with
  | leave h hx hd => exact .leave hx hd rfl rfl
  | sync h => exact .sync h rfl rfl
  | hash h hx chunks hr => exact .hash h hx hr rfl rfl rfl
  | @done x actual ok h hx ha =>
    cases ok with
    | false => cases he
    | true =>
      cases hv : verdict x.sha256 actual with
      | none =>
        refine .done h hx (by rw [ha, verdict_eq_none.mp hv]) rfl rfl ?_
        simp [wroteTo, RecvPc.ifOk]
      | some e => simp [wroteTo, RecvPc.ifOk, hv, RecvPc.ended] at he
  | @hello f h =>
    rcases onHello_cases f with ⟨_, _, -, hf⟩ | ⟨_, -, hf⟩ | ⟨_, hf⟩ <;>
      simp [hf, RecvPc.ended] at he
  | @manifest t f h =>
    rcases onManifest_cases t f with ⟨_, _, _, _, _, _, -, -, hf⟩ | ⟨_, hf⟩ | hf <;>
      simp [hf, RecvPc.ended] at he
  | datagram h | tickQuiet h => simp [setCol, h, RecvPc.ended] at he
  | @helloAck _ _ ok | @manifestAck ok | @ack _ _ _ ok | @tick _ _ _ _ _ _ _ ok =>
    cases ok <;> cases he
  | _ => cases he

theorem RecvStep.left {s s' : RecvState rq} {a : Act Frame} (h : RecvStep sha plane dec s a s')
    (hi : RecvInv sha s) (hl : s'.pc.left = true) :
    ∃ x, s'.live = some x ∧ ¬ x.col.decoded < x.layout.numBlocks := by
  cases h.ends (RecvPc.ended_of_left hl) with
  | leave hx hd hlive => exact ⟨_, by rw [hlive, hx], hd⟩
  | sync h hlive | hash h _ _ hlive =>
    rw [hlive]
    exact hi.left (by rw [h]; rfl)
  | done _ _ _ _ _ hpc =>
    rw [hpc] at hl
    cases hl

theorem RecvStep.hashed {s s' : RecvState rq} {a : Act Frame} (h : RecvStep sha plane dec s a s')
    (hr : s'.pc = .report) : ∃ x chunks, s'.live = some x ∧ ReadsOf x.col.file chunks ∧
      s'.actual = some (sha256File sha chunks) := by
  cases h.ends (by rw [hr]; rfl) with
  | hash _ hx hreads hlive hact => exact ⟨_, _, by rw [hlive, hx], hreads, hact⟩
  | leave _ _ _ hpc | sync _ _ hpc | done _ _ _ _ _ hpc => cases hr.symm.trans hpc

/-- Where Done is written and the hash is the manifest's, the file is verified. -/
theorem RecvInv.verified_of_hash {s : RecvState rq} (hi : RecvInv sha s) (h : s.pc = .report)
    {x : Live rq} (hx : s.live = some x) (ha : s.actual = some x.sha256) : s.Verified sha := by
  obtain ⟨y, chunks, hy, hreads, hact⟩ := hi.hashed h
  obtain ⟨z, hz, hdec⟩ := hi.left (by rw [h]; rfl)
  cases hx.symm.trans hy
  cases hx.symm.trans hz
  have hcol := hi.col x hx
  exact ⟨x, chunks, hx, hcol.blocks, fun b hb => hcol.all_done hdec hb, hreads, hact,
    Option.some.inj (hact.symm.trans ha)⟩

theorem RecvState.Verified.of_eq {s s' : RecvState rq} (h : s.Verified sha)
    (hl : s'.live = s.live) (ha : s'.actual = s.actual) : s'.Verified sha := by
  obtain ⟨x, chunks, hx, hlen, hdone, hreads, hact, heq⟩ := h
  exact ⟨x, chunks, by rw [hl, hx], hlen, hdone, hreads, by rw [ha, hact], heq⟩

/-- Ok is returned where the hash of the file is the manifest's. -/
theorem RecvStep.verified {s s' : RecvState rq} {a : Act Frame} (h : RecvStep sha plane dec s a s')
    (hi : RecvInv sha s) (hr : s'.pc = .returned (.ok ())) : s'.Verified sha := by
  cases h.ends (by rw [hr]; rfl) with
  | done h hx ha hlive hact => exact (hi.verified_of_hash h hx ha).of_eq hlive hact
  | leave _ _ _ hpc | sync _ _ hpc | hash _ _ _ _ _ hpc => cases hr.symm.trans hpc

/-- A frame a step writes: BlockDecoded for a Done block, and a Done frame
that says Ok with the file verified, as the transfer returns. -/
theorem RecvStep.writes {s s' : RecvState rq} {f : Frame} {ok : Bool}
    (h : RecvStep sha plane dec s (.write f ok) s') (hi : RecvInv sha s) :
    (∀ b, f = .blockDecoded b → s.DoneAt b) ∧
      ∀ e, f = .done true e → s'.Verified sha ∧ ∃ r, s'.pc = .returned r := by
  cases h with
  | @ack x b bs _ h hx hb =>
    refine ⟨fun b' he => ?_, nofun⟩
    cases he
    exact ⟨x, hx, (hi.col x hx).acks b (by rw [hb]; exact List.mem_cons_self)⟩
  | @done x actual _ h hx ha =>
    refine ⟨nofun, fun e he => ?_⟩
    simp only [Frame.done.injEq, beq_iff_eq] at he
    refine ⟨hi.verified_of_hash h hx (by rw [ha, he.1]), ?_⟩
    cases ok <;> exact ⟨_, rfl⟩
  | tick h hx hd tMs hf =>
    obtain ⟨-, span, -, rfl⟩ := Collect.report_eq_some (Collect.onTick_eq_ok.mp hf).1
    exact ⟨nofun, nofun⟩
  | reject | helloAck | manifestAck => exact ⟨nofun, nofun⟩

theorem RecvStep.not_returned {s s' : RecvState rq} {a : Act Frame}
    (h : RecvStep sha plane dec s a s') (r : Except Error Unit) : s.pc ≠ .returned r := by
  intro hr
  cases h with
  | readFail h | callFail h | hello h | reject h | bindPush h | bindPull h | helloAck h | manifest h
  | create h | setLenFail h | manifestAck h | batch h | recvFail h | datagram h | datagramPanic h
  | batchEnd h | batchErr h | ack h | acked h | tick h | tickQuiet h | tickPanic h | leave h
  | sync h | hash h | done h => rw [hr] at h; cases h

/-- Every step keeps the receiver's invariant. -/
theorem RecvStep.inv {s s' : RecvState rq} {a : Act Frame} (h : RecvStep sha plane dec s a s')
    (hi : RecvInv sha s) : RecvInv sha s' where
  early := h.early hi
  col := h.col hi
  left := h.left hi
  hashed := h.hashed
  verified := h.verified hi
  acked b hb := by
    rcases h.wrote with ⟨f, ok, rfl, hw⟩ | ⟨-, hw⟩
    · rw [hw, List.mem_append, List.mem_singleton] at hb
      rcases hb with hb | hb
      · exact h.doneAt hi (hi.acked b hb)
      · exact h.doneAt hi ((h.writes hi).1 b hb.symm)
    · exact h.doneAt hi (hi.acked b (by rwa [hw] at hb))
  done e he := by
    rcases h.wrote with ⟨f, ok, rfl, hw⟩ | ⟨-, hw⟩
    · rw [hw, List.mem_append, List.mem_singleton] at he
      rcases he with he | he
      · obtain ⟨-, r, hr⟩ := hi.done e he
        exact absurd hr (h.not_returned r)
      · exact (h.writes hi).2 e he.symm
    · obtain ⟨-, r, hr⟩ := hi.done e (by rwa [hw] at he)
      exact absurd hr (h.not_returned r)

end AtpExperiment
