/-
The handshake: no early effects, and agreement.

Whatever frames a peer sends, the receiver touches its output path, and writes
ManifestAck, only after a Hello of its version and a Manifest whose sizes are
not zero and whose block count is the one it computes. Between two honest ends
the layout and the tag are then the same, and the symbol plane is opened
between the ports the ends bound (`handshake`).

`HandStep` says once what a step of the receiver does to the handshake.
-/
import AtpExperiment.Session

namespace AtpExperiment

open Octets Aead Duplex

variable {rq : Raptorq}

/-! ## Steps of the receiver -/

/-- Before ManifestAck is written. -/
def RecvPc.shaking : RecvPc → Bool
  | .hello | .bind .. | .helloAck .. | .manifest _ | .create .. | .manifestAck => true
  | _ => false

/-- The receiver's frames of the handshake. -/
def Frame.shakes : Frame → Bool
  | .helloAck _ | .manifestAck => true
  | _ => false

/-- The frames an act reads. -/
def framesRead : Act Frame → List Frame
  | .read f => [f]
  | _ => []

@[simp] theorem framesRead_tau : framesRead .tau = [] := rfl

@[simp] theorem framesRead_write (f : Frame) (ok : Bool) : framesRead (.write f ok) = [] := rfl

/-- What a step does to the handshake: one of its own steps, or nothing. -/
inductive HandStep (plane : RxPlane) (s : RecvState rq) : Act Frame → RecvState rq → Prop
  | hello {f : Frame} (h : s.pc = .hello) : HandStep plane s (.read f) { s with pc := onHello f }
  | bindPush {t : UInt64} {port : UInt16} (h : s.pc = .bind t none) :
    HandStep plane s .tau { s with udpPort := some port, pc := .helloAck t (some port) }
  | bindPull {t : UInt64} {sport port : UInt16} (h : s.pc = .bind t (some sport)) :
    HandStep plane s .tau { s with
      udpPort := some port
      flowTo := some sport
      keepalive := .running
      pc := .helloAck t none }
  | helloAck {t : UInt64} {port : Option UInt16} {ok : Bool} (h : s.pc = .helloAck t port) :
    HandStep plane s (.write (.helloAck port) ok)
      (s.wroteTo (.helloAck port) (.ifOk ok (.manifest t)))
  | manifest {t : UInt64} {f : Frame} (h : s.pc = .manifest t) :
    HandStep plane s (.read f) { s with pc := onManifest t f }
  | create {t : UInt64} {m : Accepted} (h : s.pc = .create t m) :
    HandStep plane s .tau { s with
      created := true
      live := some ⟨t, m.sha256, m.layout, .new rq plane m.layout⟩
      pc := .manifestAck }
  | setLenFail {t : UInt64} {m : Accepted} (h : s.pc = .create t m) :
    HandStep plane s .tau { s.fail .io with created := true }
  | manifestAck {ok : Bool} (h : s.pc = .manifestAck) :
    HandStep plane s (.write .manifestAck ok) (s.wroteTo .manifestAck (.ifOk ok .collect))
  | rest {a : Act Frame} {s' : RecvState rq} (hr : framesRead a = []) (hpc : s'.pc.shaking = false)
      (hudp : s'.udpPort = s.udpPort) (hflow : s'.flowTo = s.flowTo)
      (hcreated : s'.created = s.created) (hlive : s'.live = none ↔ s.live = none)
      (hwrote : ∀ f ∈ s'.wrote, f.shakes = true → f ∈ s.wrote) : HandStep plane s a s'

section

variable {sha : Sha256} {plane : RxPlane} {dec : Decrypt}

theorem mem_wrote_of_shakes {fs : List Frame} {g : Frame} (hg : g.shakes = false) :
    ∀ f ∈ fs ++ [g], f.shakes = true → f ∈ fs := by
  intro f hf hs
  rcases List.mem_append.mp hf with hf | hf
  · exact hf
  · rw [List.mem_singleton.mp hf, hg] at hs
    cases hs

theorem some_eq_none_iff {α : Type} {o : Option α} {x : α} (y : α) (h : o = some x) :
    some y = none ↔ o = none := by
  subst h
  exact iff_of_false (Option.some_ne_none y) (Option.some_ne_none x)

theorem RecvStep.hand {s s' : RecvState rq} {a : Act Frame} (h : RecvStep sha plane dec s a s') :
    HandStep plane s a s' := by
  cases h with
  | hello h => exact .hello h
  | bindPush h => exact .bindPush h
  | bindPull h => exact .bindPull h
  | helloAck h => exact .helloAck h
  | manifest h => exact .manifest h
  | create h => exact .create h
  | setLenFail h => exact .setLenFail h
  | manifestAck h => exact .manifestAck h
  | reject => exact .rest rfl rfl rfl rfl rfl Iff.rfl (mem_wrote_of_shakes rfl)
  | @ack x _ _ ok _ hx =>
    refine .rest rfl ?_ rfl rfl rfl ?_ (mem_wrote_of_shakes rfl)
    · cases ok <;> rfl
    · exact some_eq_none_iff _ hx
  | @tick _ _ _ hx _ _ f ok hf =>
    obtain ⟨-, span, -, rfl⟩ := Collect.report_eq_some (Collect.onTick_eq_ok.mp hf).1
    refine .rest rfl ?_ rfl rfl rfl ?_ (mem_wrote_of_shakes rfl)
    · cases ok <;> rfl
    · exact some_eq_none_iff _ hx
  | @done _ _ ok =>
    refine .rest rfl ?_ rfl rfl rfl Iff.rfl (mem_wrote_of_shakes rfl)
    cases ok <;> rfl
  | datagram h hx | tickQuiet h hx =>
    refine .rest rfl ?_ rfl rfl rfl ?_ fun _ hf _ => hf
    · rw [RecvState.setCol, h]
      rfl
    · exact some_eq_none_iff _ hx
  | _ => exact .rest rfl rfl rfl rfl rfl Iff.rfl fun _ hf _ => hf

end

/-! ## No early effects -/

/-- A Hello of this version. -/
def Greeted (frames : List Frame) : Prop := ∃ t port, frames = [.hello version t port]

/-- A Hello of this version and a Manifest the receiver accepts. -/
def Accepts (frames : List Frame) : Prop :=
  ∃ t port name fileSize sha256 blockSize symbolSize numBlocks,
    frames = [.hello version t port,
      .manifest name fileSize sha256 blockSize symbolSize numBlocks] ∧
    fileSize ≠ 0 ∧ blockSize ≠ 0 ∧ symbolSize ≠ 0 ∧
    numBlocks.toNat = divCeil fileSize.toNat blockSize.toNat

theorem acceptManifest_eq_ok {fileSize : UInt64} {sha256 : String} {blockSize : UInt32}
    {symbolSize : UInt16} {numBlocks : UInt32} {m : Accepted}
    (h : acceptManifest fileSize sha256 blockSize symbolSize numBlocks = .ok (.ok m)) :
    fileSize ≠ 0 ∧ blockSize ≠ 0 ∧ symbolSize ≠ 0 ∧
      numBlocks.toNat = divCeil fileSize.toNat blockSize.toNat := by
  simp only [acceptManifest] at h
  split at h
  · cases h
  next hzero =>
  simp only [not_or] at hzero
  simp only [Checked.bind_eq_ok] at h
  obtain ⟨l, hl, h⟩ := h
  split at h
  · cases h
  next hn =>
  obtain ⟨hf, hb, -⟩ := Layout.new_eq_ok hl
  refine ⟨hzero.1, hzero.2.1, hzero.2.2, ?_⟩
  rw [← not_not.mp hn, l.blocks_eq, hf, hb]

theorem Greeted.accepts {frames : List Frame} {t t' : UInt64} {f : Frame} {m : Accepted}
    (h : Greeted frames) (hf : onManifest t f = .create t' m) : Accepts (frames ++ [f]) := by
  obtain ⟨tag, port, rfl⟩ := h
  cases f with
  | manifest name fileSize sha256 blockSize symbolSize numBlocks =>
    simp only [onManifest] at hf
    split at hf
    · cases hf
    · cases hf
    · next hm => exact ⟨_, _, _, _, _, _, _, _, rfl, acceptManifest_eq_ok hm⟩
  | _ => cases hf

/-- After the Hello, before the Manifest. -/
def RecvPc.greeted : RecvPc → Bool
  | .bind .. | .helloAck .. | .manifest _ => true
  | _ => false

/-- After the Manifest, before ManifestAck. -/
def RecvPc.accepted : RecvPc → Bool
  | .create .. | .manifestAck => true
  | _ => false

theorem RecvPc.shaking_of_greeted {pc : RecvPc} (h : pc.greeted = true) : pc.shaking = true := by
  cases pc with
  | bind | helloAck | manifest => rfl
  | _ => cases h

theorem RecvPc.shaking_of_accepted {pc : RecvPc} (h : pc.accepted = true) :
    pc.shaking = true := by
  cases pc with
  | create | manifestAck => rfl
  | _ => cases h

theorem RecvPc.accepted_of_greeted {pc : RecvPc} (h : pc.greeted = true) :
    pc.accepted = false := by
  cases pc with
  | bind | helloAck | manifest => rfl
  | _ => cases h

/-- The output path was created or truncated, the transfer has a file, or
ManifestAck was written. -/
def RecvState.Effect (s : RecvState rq) : Prop :=
  s.created = true ∨ s.live ≠ none ∨ .manifestAck ∈ s.wrote

/-- What the frames read so far are, by where the receiver is. -/
structure OpenInv (s : RecvState rq) (frames : List Frame) : Prop where
  hello : s.pc = .hello → frames = []
  greeted : s.pc.greeted = true → Greeted frames
  accepted : s.pc.accepted = true → Accepts frames
  effect : s.Effect → Accepts frames

theorem openInv_init : OpenInv (RecvState.init rq) [] where
  hello _ := rfl
  greeted h := by cases h
  accepted h := by cases h
  effect h := by
    rcases h with h | h | h
    · cases h
    · exact absurd rfl h
    · cases h

/-- Without the two frames there was no effect. -/
theorem OpenInv.no_effect {s : RecvState rq} {frames : List Frame} (hi : OpenInv s frames)
    (h : ¬ Accepts frames) : ¬ s.Effect := fun he => h (hi.effect he)

theorem not_accepts_nil : ¬ Accepts [] := by
  intro h
  obtain ⟨_, _, _, _, _, _, _, _, h, -⟩ := h
  cases h

theorem Greeted.not_accepts {frames : List Frame} (h : Greeted frames) : ¬ Accepts frames := by
  intro ha
  obtain ⟨_, _, rfl⟩ := h
  obtain ⟨_, _, _, _, _, _, _, _, ha, -⟩ := ha
  cases ha

/-- Past the handshake, or stopped, only the effects matter. -/
theorem OpenInv.of_not_shaking {s : RecvState rq} {frames : List Frame}
    (hpc : s.pc.shaking = false) (he : s.Effect → Accepts frames) : OpenInv s frames where
  hello h := by rw [h] at hpc; cases hpc
  greeted h := by rw [RecvPc.shaking_of_greeted h] at hpc; cases hpc
  accepted h := by rw [RecvPc.shaking_of_accepted h] at hpc; cases hpc
  effect := he

theorem OpenInv.of_greeted {s : RecvState rq} {frames : List Frame} (hpc : s.pc.greeted = true)
    (hg : Greeted frames) (he : s.Effect → Accepts frames) : OpenInv s frames where
  hello h := by rw [h] at hpc; cases hpc
  greeted _ := hg
  accepted h := by rw [RecvPc.accepted_of_greeted hpc] at h; cases h
  effect := he

theorem OpenInv.of_accepted {s : RecvState rq} {frames : List Frame}
    (hpc : s.pc.accepted = true) (ha : Accepts frames) : OpenInv s frames where
  hello h := by rw [h] at hpc; cases hpc
  greeted h := by rw [RecvPc.accepted_of_greeted h] at hpc; cases hpc
  accepted _ := ha
  effect _ := ha

theorem HandStep.openInv {plane : RxPlane} {s s' : RecvState rq} {a : Act Frame}
    {frames : List Frame} (h : HandStep plane s a s') (hi : OpenInv s frames) :
    OpenInv s' (frames ++ framesRead a) := by
  cases h with
  | @hello f h =>
    obtain rfl := hi.hello h
    have hno := hi.no_effect not_accepts_nil
    rcases onHello_cases f with ⟨t, port, rfl, hf⟩ | ⟨msg, -, hf⟩ | ⟨e, hf⟩ <;> rw [hf]
    · exact .of_greeted rfl ⟨t, port, rfl⟩ fun he => absurd he hno
    · exact .of_not_shaking rfl fun he => absurd he hno
    · exact .of_not_shaking rfl fun he => absurd he hno
  | bindPush h | bindPull h =>
    rw [framesRead_tau, List.append_nil]
    exact .of_greeted rfl (hi.greeted (by rw [h]; rfl)) hi.effect
  | @helloAck t port ok h =>
    have hg := hi.greeted (by rw [h]; rfl)
    have hno := hi.no_effect hg.not_accepts
    have he : ¬ (s.wroteTo (.helloAck port) (.ifOk ok (.manifest t))).Effect := by
      intro he
      refine hno (he.imp_right fun he => he.imp_right fun hw => ?_)
      simpa [RecvState.wroteTo] using hw
    rw [framesRead_write, List.append_nil]
    cases ok with
    | true => exact .of_greeted rfl hg fun h => absurd h he
    | false => exact .of_not_shaking rfl fun h => absurd h he
  | @manifest t f h =>
    have hg := hi.greeted (by rw [h]; rfl)
    have hno := hi.no_effect hg.not_accepts
    rcases onManifest_cases t f with ⟨m, _, _, _, _, _, -, -, hf⟩ | ⟨e, hf⟩ | hf
    · have ha := hg.accepts hf
      rw [hf]
      exact .of_accepted rfl ha
    · rw [hf]
      exact .of_not_shaking rfl fun he => absurd he hno
    · rw [hf]
      exact .of_not_shaking rfl fun he => absurd he hno
  | create h =>
    have ha := hi.accepted (by rw [h]; rfl)
    rw [framesRead_tau, List.append_nil]
    exact .of_accepted rfl ha
  | setLenFail h =>
    have ha := hi.accepted (by rw [h]; rfl)
    rw [framesRead_tau, List.append_nil]
    exact .of_not_shaking rfl fun _ => ha
  | @manifestAck ok h =>
    have ha := hi.accepted (by rw [h]; rfl)
    rw [framesRead_write, List.append_nil]
    refine .of_not_shaking ?_ fun _ => ha
    cases ok <;> rfl
  | rest hr hpc _ _ hcreated hlive hwrote =>
    rw [hr, List.append_nil]
    refine .of_not_shaking hpc fun he => hi.effect ?_
    rcases he with he | he | he
    · exact .inl (hcreated ▸ he)
    · exact .inr (.inl fun h => he (hlive.mpr h))
    · exact .inr (.inr (hwrote _ he rfl))

/-- The receiver with any peer: a run, for any datagrams and any AEAD, and the
control frames it has read. -/
def Receives (sha : Sha256) (plane : RxPlane) : RecvState rq → List Frame → Prop :=
  Runs.Emits (· = .init rq) framesRead fun s a s' => ∃ dec, RecvStep sha plane dec s a s'

theorem Receives.openInv {sha : Sha256} {plane : RxPlane} {s : RecvState rq} {frames : List Frame}
    (h : Receives sha plane s frames) : OpenInv s frames := by
  induction h with
  | start h =>
    rw [h]
    exact openInv_init
  | next _ hst ih =>
    obtain ⟨dec, hst⟩ := hst
    exact hst.hand.openInv ih

/-! ## Ports -/

/-- The data port of the Hello frame. -/
def Rendezvous.dataPort : Rendezvous → Option UInt16
  | .push => none
  | .pull port => some port

/-- The port of a HelloAck against the receiver's: pushing, the one the receiver
bound; pulling, none, and the receiver's flow goes to the sender's. -/
def Rendezvous.Matches (p : Option UInt16) (s : RecvState rq) : Rendezvous → Prop
  | .push => ∃ port, p = some port ∧ s.udpPort = some port
  | .pull port => p = none ∧ s.flowTo = some port

theorem Rendezvous.Matches.of_eq {rv : Rendezvous} {p : Option UInt16} {s s' : RecvState rq}
    (h : rv.Matches p s) (hudp : s'.udpPort = s.udpPort) (hflow : s'.flowTo = s.flowTo) :
    rv.Matches p s' := by
  cases rv with
  | push =>
    obtain ⟨port, hp, hs⟩ := h
    exact ⟨port, hp, hudp.trans hs⟩
  | pull port => exact ⟨h.1, hflow.trans h.2⟩

/-- Before the receiver has bound its port. -/
def RecvPc.unbound : RecvPc → Bool
  | .hello | .bind .. => true
  | _ => false

theorem RecvPc.shaking_of_unbound {pc : RecvPc} (h : pc.unbound = true) : pc.shaking = true := by
  cases pc with
  | hello | bind => rfl
  | _ => cases h

/-- The receiver's ports and the HelloAck it writes, with an honest sender. -/
structure PortInv (rv : Rendezvous) (s : RecvState rq) : Prop where
  unbound : s.pc.unbound = true → s.wrote = []
  bind : ∀ t d, s.pc = .bind t d → d = rv.dataPort
  ack : ∀ t p, s.pc = .helloAck t p → rv.Matches p s
  made : s.pc = .manifestAck → s.live ≠ none
  wrote : ∀ p, .helloAck p ∈ s.wrote → rv.Matches p s
  live : .manifestAck ∈ s.wrote → s.live ≠ none

theorem portInv_init (rv : Rendezvous) : PortInv rv (RecvState.init rq) where
  unbound _ := rfl
  bind t d h := by cases h
  ack t p h := by cases h
  made h := by cases h
  wrote p h := by cases h
  live h := by cases h

theorem PortInv.of_not_shaking {rv : Rendezvous} {s : RecvState rq} (hpc : s.pc.shaking = false)
    (hw : ∀ p, .helloAck p ∈ s.wrote → rv.Matches p s)
    (hl : .manifestAck ∈ s.wrote → s.live ≠ none) : PortInv rv s where
  unbound h := by rw [RecvPc.shaking_of_unbound h] at hpc; cases hpc
  bind t d h := by rw [h] at hpc; cases hpc
  ack t p h := by rw [h] at hpc; cases hpc
  made h := by rw [h] at hpc; cases hpc
  wrote := hw
  live := hl

theorem HandStep.portInv {cfg : SendCfg} {plane : RxPlane} {s s' : RecvState rq} {a : Act Frame}
    (h : HandStep plane s a s') (hi : PortInv cfg.rendezvous s)
    (hread : ∀ f, a = .read f → f = cfg.hello ∨ f = cfg.manifest) :
    PortInv cfg.rendezvous s' := by
  cases h with
  | @hello f h =>
    have hnil := hi.unbound (by rw [h]; rfl)
    rcases onHello_cases f with ⟨t, port, rfl, hf⟩ | ⟨msg, -, hf⟩ | ⟨e, hf⟩ <;> rw [hf]
    · refine ⟨fun _ => hnil, fun t' d hb => ?_, nofun, nofun, hi.wrote, hi.live⟩
      cases hb
      rcases hread _ rfl with hfr | hfr
      · exact (Frame.hello.inj hfr).2.2
      · cases hfr
    · exact .of_not_shaking rfl hi.wrote hi.live
    · exact .of_not_shaking rfl hi.wrote hi.live
  | bindPush h =>
    have hnil := hi.unbound (by rw [h]; rfl)
    have hd := hi.bind _ _ h
    refine ⟨nofun, nofun, fun t p hp => ?_, nofun, fun p hp => ?_, hi.live⟩
    · cases hp
      cases hrv : cfg.rendezvous with
      | push => exact ⟨_, rfl, rfl⟩
      | pull port => rw [hrv] at hd; cases hd
    · rw [hnil] at hp
      cases hp
  | bindPull h =>
    have hnil := hi.unbound (by rw [h]; rfl)
    have hd := hi.bind _ _ h
    refine ⟨nofun, nofun, fun t p hp => ?_, nofun, fun p hp => ?_, hi.live⟩
    · cases hp
      cases hrv : cfg.rendezvous with
      | push => rw [hrv] at hd; cases hd
      | pull port =>
        rw [hrv] at hd
        cases hd
        exact ⟨rfl, rfl⟩
    · rw [hnil] at hp
      cases hp
  | @helloAck t port ok h =>
    have hw : ∀ p, .helloAck p ∈ s.wrote ++ [.helloAck port] → cfg.rendezvous.Matches p s := by
      intro p hp
      rcases List.mem_append.mp hp with hp | hp
      · exact hi.wrote p hp
      · cases List.mem_singleton.mp hp
        exact hi.ack t port h
    have hl : .manifestAck ∈ s.wrote ++ [.helloAck port] → s.live ≠ none := by
      intro hm
      exact hi.live (by simpa using hm)
    cases ok with
    | true => exact ⟨nofun, nofun, nofun, nofun, fun p hp => (hw p hp).of_eq rfl rfl, hl⟩
    | false => exact .of_not_shaking rfl (fun p hp => (hw p hp).of_eq rfl rfl) hl
  | @manifest t f h =>
    rcases onManifest_cases t f with ⟨m, _, _, _, _, _, -, -, hf⟩ | ⟨e, hf⟩ | hf <;> rw [hf]
    · exact ⟨nofun, nofun, nofun, nofun, hi.wrote, hi.live⟩
    · exact .of_not_shaking rfl hi.wrote hi.live
    · exact .of_not_shaking rfl hi.wrote hi.live
  | create h => exact ⟨nofun, nofun, nofun, nofun, hi.wrote, nofun⟩
  | setLenFail h => exact .of_not_shaking rfl hi.wrote hi.live
  | @manifestAck ok h =>
    refine .of_not_shaking (by cases ok <;> rfl) (fun p hp => ?_) fun _ => hi.made h
    exact (hi.wrote p (by simpa [RecvState.wroteTo] using hp)).of_eq rfl rfl
  | rest _ hpc hudp hflow _ hlive hwrote =>
    refine .of_not_shaking hpc (fun p hp => (hi.wrote p (hwrote _ hp rfl)).of_eq hudp hflow) ?_
    intro hm hnone
    exact hi.live (hwrote _ hm rfl) (hlive.mp hnone)

/-! ## Steps of the sender -/

/-- The port of the HelloAck, until the symbol plane is open. -/
def SendPc.advertised : SendPc → Option (Option UInt16)
  | .manifest p | .manifestAck p | .openPlane p => some p
  | _ => none

/-- What a step does to the sender's side of the handshake. -/
inductive ShakeStep (s : SendState rq) (a : Act Frame) (s' : SendState rq) : Prop
  | same (h : s'.pc = s.pc)
  /-- Before HelloAck, or stopped. -/
  | idle (h : s'.pc.advertised = none) (hs : s'.pc.spraying = false)
  | helloAck {p : Option UInt16} (ha : a = .read (.helloAck p)) (h : s'.pc = .manifest p)
  | manifest {p : Option UInt16} (hs : s.pc = .manifest p) (h : s'.pc = .manifestAck p)
  | manifestAck {p : Option UInt16} (hs : s.pc = .manifestAck p) (ha : a = .read .manifestAck)
      (h : s'.pc = .openPlane p)
  | opened {p : Option UInt16} (hs : s.pc = .openPlane p) (h : s'.pc = .drain .top)
  | sprays (hs : s.pc.spraying = true) (h : s'.pc.spraying = true)

theorem SendStep.shake {enc : Encrypt} {cfg : SendCfg} {s s' : SendState rq} {a : Act Frame}
    {e : Option Sealed} (h : SendStep enc cfg s a e s') : ShakeStep s a s' := by
  cases h with
  | readerRead | readerFail | readerReturn | drainGo => exact .same rfl
  | readFail | callFail | helloAckOther | manifestAckOther | openPushNone | openPullTimeout
  | drainDone | drainErr | drainPanic | drainClosed | awaitDone | awaitFail | turnPanic | encodeFail
  | packetPanic | roundPanic | flushPanic => exact .idle rfl rfl
  | @hello ok => cases ok <;> exact .idle rfl rfl
  | helloAck => exact .helloAck rfl rfl
  | @manifest p ok h =>
    cases ok with
    | true => exact .manifest h rfl
    | false => exact .idle rfl rfl
  | manifestAck h => exact .manifestAck h rfl rfl
  | openPush h | openPull h => exact .opened h rfl
  | @drainEmpty k h =>
    refine .sprays (by rw [h]; rfl) ?_
    rcases SendState.resume_cases cfg s.v k with hk | ⟨_, -, hk⟩ | hk | hk <;> rw [hk] <;> rfl
  | queued h =>
    refine .sprays (by rw [h]; rfl) ?_
    simp only
    split <;> rfl
  | @packetsEnd _ todo h =>
    refine .sprays (by rw [h]; rfl) ?_
    rcases SendState.endTurn_cases s.v todo with hk | ⟨-, hk⟩ | hk <;> rw [hk] <;> rfl
  | flush h _ gone | flushTail h _ gone => cases gone <;> exact .sprays (by rw [h]; rfl) rfl
  | selectAwait h | selectBlocks h | awaitOther h | skip h | turn h | blocksEnd h | dropped h
  | roundEnd h | settle h => exact .sprays (by rw [h]; rfl) rfl

theorem SendPc.advertised_of_spraying {pc : SendPc} (h : pc.spraying = true) :
    pc.advertised = none := by
  cases pc with
  | manifest | manifestAck | openPlane => cases h
  | _ => rfl

/-! ## Agreement -/

namespace Session

/-- The port with which a step opens the symbol plane: that of the HelloAck. -/
def opening (a : Sys rq × Sys rq) : List (Option UInt16) :=
  match a.1.snd.pc, a.2.snd.pc with
  | .openPlane p, .drain _ => [p]
  | _, _ => []

/-- A run to `s`, and the ports with which the sender opened the symbol plane. -/
def Opens (S : Session) : Sys rq → List (Option UInt16) → Prop :=
  Runs.Emits (· = S.start rq) opening fun s a t => a = (s, t) ∧ S.Step s t

theorem Opens.reachable {S : Session} {s : Sys rq} {ports : List (Option UInt16)}
    (h : S.Opens s ports) : S.Reachable s := by
  induction h with
  | start h => exact .start h
  | next _ hst ih => exact Runs.Reachable.next ih hst.2

theorem Reachable.opens {S : Session} {s : Sys rq} (h : S.Reachable s) :
    ∃ ports, S.Opens s ports := by
  refine Runs.Reachable.invariant h (fun s => ∃ ports, S.Opens s ports) ?_ ?_
  · intro s hs
    exact ⟨[], .start hs⟩
  · intro s t ho hst
    obtain ⟨ports, ho⟩ := ho
    exact ⟨_, Runs.Emits.next ho ⟨rfl, hst⟩⟩

/-- The handshake as both ends see it. -/
structure HandInv (S : Session) (s : Sys rq) (ports : List (Option UInt16)) : Prop where
  port : PortInv S.cfg.rendezvous s.rcv
  advertised : ∀ p, s.snd.pc.advertised = some p → .helloAck p ∈ s.rcv.wrote
  opening : ∀ p, s.snd.pc = .openPlane p → .manifestAck ∈ s.rcv.wrote
  opened : ∀ p ∈ ports, .helloAck p ∈ s.rcv.wrote ∧ .manifestAck ∈ s.rcv.wrote
  spraying : s.snd.pc.spraying = true → ports ≠ []

theorem handInv_start (rq : Raptorq) (S : Session) : S.HandInv (S.start rq) [] where
  port := portInv_init _
  advertised p h := by cases h
  opening p h := by cases h
  opened p h := by cases h
  spraying h := by cases h

theorem HandInv.recv {S : Session} {s : Sys rq} {ports : List (Option UInt16)}
    (hi : S.HandInv s ports) (hinv : S.Inv s) {a : Act Frame} {rcv : RecvState rq}
    {i o : Pipe Frame} (h : RecvStep S.sha S.rxPlane (S.aead s.table) s.rcv a rcv)
    (hio : Io a s.toRecv s.toSend i o) :
    S.HandInv { s with rcv, toRecv := i, toSend := o } ports where
  port := h.hand.portInv hi.port fun f hf => by subst hf; exact hinv.toRecv f hio.read_mem
  advertised p hp := h.wrote_mono (.inl (hi.advertised p hp))
  opening p hp := h.wrote_mono (.inl (hi.opening p hp))
  opened p hp := ⟨h.wrote_mono (.inl (hi.opened p hp).1), h.wrote_mono (.inl (hi.opened p hp).2)⟩
  spraying := hi.spraying

theorem openPlane_of_mem_opening {s t : Sys rq} {p : Option UInt16} (h : p ∈ opening (s, t)) :
    s.snd.pc = .openPlane p := by
  unfold opening at h
  split at h
  · next hs _ =>
    rw [List.mem_singleton.mp h]
    exact hs
  · cases h

theorem opening_eq_nil {s t : Sys rq} (h : t.snd = s.snd) : opening (s, t) = [] := by
  unfold opening
  rw [h]
  cases s.snd.pc <;> rfl

theorem HandInv.send {S : Session} {s t : Sys rq} {ports : List (Option UInt16)}
    (hi : S.HandInv s ports) (hinv : S.Inv s) {a : Act Frame}
    (h : ShakeStep s.snd a t.snd) (hread : ∀ f, a = .read f → f ∈ s.toSend.queue)
    (hrcv : t.rcv = s.rcv) : S.HandInv t (ports ++ Session.opening (s, t)) where
  port := by
    rw [hrcv]
    exact hi.port
  advertised p hp := by
    rw [hrcv]
    cases h with
    | same h => exact hi.advertised p (h ▸ hp)
    | idle h => rw [h] at hp; cases hp
    | helloAck ha h =>
      rw [h] at hp
      cases hp
      exact hinv.toSend _ (hread _ ha)
    | manifest hs h | manifestAck hs _ h =>
      rw [h] at hp
      cases hp
      exact hi.advertised p (by rw [hs]; rfl)
    | opened _ h => rw [h] at hp; cases hp
    | sprays _ h => rw [SendPc.advertised_of_spraying h] at hp; cases hp
  opening p hp := by
    rw [hrcv]
    cases h with
    | same h => exact hi.opening p (h ▸ hp)
    | idle h => rw [hp] at h; cases h
    | manifestAck _ ha => exact hinv.toSend _ (hread _ ha)
    | helloAck _ h | manifest _ h | opened _ h => rw [hp] at h; cases h
    | sprays _ h => rw [hp] at h; cases h
  opened p hp := by
    rw [hrcv]
    rcases List.mem_append.mp hp with hp | hp
    · exact hi.opened p hp
    · have hpc := openPlane_of_mem_opening hp
      exact ⟨hi.advertised p (by rw [hpc]; rfl), hi.opening p hpc⟩
  spraying hp := by
    intro hnil
    obtain ⟨hports, hopen⟩ := List.append_eq_nil_iff.mp hnil
    cases h with
    | same h => exact hi.spraying (h ▸ hp) hports
    | idle _ h => rw [h] at hp; cases hp
    | helloAck _ h | manifest _ h | manifestAck _ _ h => rw [h] at hp; cases hp
    | opened hs h => simp [Session.opening, hs, h] at hopen
    | sprays hs => exact hi.spraying hs hports

theorem Opens.handInv {S : Session} {s : Sys rq} {ports : List (Option UInt16)}
    (h : S.Opens s ports) : S.HandInv s ports := by
  induction h with
  | start h =>
    rw [h]
    exact handInv_start rq S
  | next h hst ih =>
    obtain ⟨rfl, hst⟩ := hst
    have hinv := (Opens.reachable h).inv
    cases hst with
    | send h hio => exact ih.send hinv h.shake (fun f hf => by subst hf; exact hio.read_mem) rfl
    | recv h hio =>
      rw [opening_eq_nil, List.append_nil]
      · exact ih.recv hinv h hio
      · rfl
    | cutToRecv | cutToSend =>
      exact ih.send hinv (a := .tau) (.same rfl) (fun f hf => nomatch hf) rfl

end Session

/-- **Handshake: no early effects, and agreement.** With any peer, the receiver
creates or truncates its output path, or writes ManifestAck, only if the frames
it read are a Hello of its version and a Manifest with sizes that are not zero
and the block count it computes. And in every run of two honest ends, in push
or pull mode: the receiver's layout and tag are the sender's, and the port with
which the sender opens, or has opened, the symbol plane to spray is the one the
receiver bound when pushing; when pulling none was advertised, and the
receiver's flow goes to the sender's port. -/
theorem handshake (rq : Raptorq) :
    (∀ sha plane (s : RecvState rq) frames, Receives sha plane s frames →
      s.created = true ∨ s.live ≠ none ∨ .manifestAck ∈ s.wrote → Accepts frames) ∧
    (∀ (S : Session) (s : Sys rq) ports, S.Opens s ports →
      (∀ x, s.rcv.live = some x →
        x.layout = S.cfg.layout ∧ x.transferTag = S.cfg.transferTag) ∧
      (∀ p, s.snd.pc = .openPlane p ∨ p ∈ ports →
        s.rcv.live ≠ none ∧ S.cfg.rendezvous.Matches p s.rcv) ∧
      (s.snd.pc.spraying = true → ports ≠ [])) := by
  refine ⟨fun sha plane s frames h => h.openInv.effect, fun S s ports h => ?_⟩
  have hi := h.handInv
  refine ⟨fun x hx => ?_, fun p hp => ?_, hi.spraying⟩
  · obtain ⟨htag, -, hl⟩ := h.reachable.inv.agreed.live x hx
    exact ⟨hl, htag⟩
  · rcases hp with hp | hp
    · exact ⟨hi.port.live (hi.opening p hp), hi.port.wrote p (hi.advertised p (by rw [hp]; rfl))⟩
    · obtain ⟨hack, hman⟩ := hi.opened p hp
      exact ⟨hi.port.live hman, hi.port.wrote p hack⟩

/-- The tiny file is pushed to port 9, which its receiver bound. -/
theorem handshake_tiny : ∃ (s : Sys .repetition) (ports : _), Session.tiny.Opens s ports ∧
    s.snd.pc.spraying = true ∧ some 9 ∈ ports ∧ s.rcv.udpPort = some (9 : UInt16) := by
  obtain ⟨ports, h⟩ :=
    (Session.connected_reachable .repetition Session.tiny rfl 9).opens
  obtain ⟨-, hports, hspray⟩ := (handshake .repetition).2 Session.tiny _ ports h
  obtain ⟨p, hp⟩ := List.exists_mem_of_ne_nil ports (hspray rfl)
  obtain ⟨-, port, rfl, hport⟩ := hports p (.inr hp)
  obtain rfl : (9 : UInt16) = port := Option.some.inj hport
  exact ⟨_, ports, h, rfl, hp, rfl⟩

end AtpExperiment
