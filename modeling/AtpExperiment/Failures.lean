/-
Why a transfer fails.

Two ends of this version never blame the protocol: each reads, in the order in which the
other writes them, the frames it expects (`Told`, `Asked`), so an error either end returns
is a failed call, a stream that was cut, a wait that ran out, or the verdict of the hash
in the receiver's own words (`failures_have_causes`). In a sealed session there is no such
verdict.
-/
import AtpExperiment.Handshake
import AtpExperiment.Hearing
import AtpExperiment.Integrity

namespace AtpExperiment

open Octets Aead Duplex

variable {rq : Raptorq} {cfg : SendCfg}

/-! ## What the receiver writes -/

/-- The `i`th frame of a receiver. -/
def ReplyAt (i : Nat) (f : Frame) : Prop :=
  match i with
  | 0 => ∃ p, f = .helloAck p
  | 1 => f = .manifestAck
  | _ => (readerTask f).2 = true ∨ ∃ ok e, f = .done ok e

/-- How many frames the receiver has written where it is. -/
def RecvPc.Said (n : Nat) : RecvPc → Prop
  | .hello | .reject _ | .bind .. | .helloAck .. => n = 0
  | .manifest _ | .create .. | .manifestAck => n = 1
  | .returned _ | .panicked => True
  | _ => 2 ≤ n

/-- What a receiver that reads the frames of `cfg` has told: its frames come in order, the
last one is Done with the verdict on its hash, and it fails on its own calls and with this
verdict only. -/
structure Told (cfg : SendCfg) (s : RecvState rq) : Prop where
  said : s.pc.Said s.wrote.length
  reply : ∀ i f, s.wrote[i]? = some f → ReplyAt i f
  done : ∀ ok e, .done ok e ∈ s.wrote → (∃ r, s.pc = .returned r) ∧ ∃ actual,
    s.actual = some actual ∧ ok = (actual == cfg.sha256) ∧ e = verdict cfg.sha256 actual
  failed : ∀ e, s.pc = .returned (.error e) →
    e = .io ∨ ∃ msg, e = .transfer msg ∧ .done false (some msg) ∈ s.wrote

theorem told_init : Told cfg (RecvState.init rq) where
  said := rfl
  reply i f h := by cases h
  done ok e h := by cases h
  failed e h := by cases h

/-- What a step tells: nothing, or one more frame. -/
inductive TellStep (cfg : SendCfg) (s s' : RecvState rq) : Prop
  | quiet (hw : s'.wrote = s.wrote) (hs : ∀ n, s.pc.Said n → s'.pc.Said n)
    (hf : ∀ e, s'.pc = .returned (.error e) → e = .io)
  | frame {f : Frame} (hw : s'.wrote = s.wrote ++ [f])
    (hs : ∀ n, s.pc.Said n → ReplyAt n f ∧ s'.pc.Said (n + 1)) (hd : ∀ ok e, f ≠ .done ok e)
    (hf : ∀ e, s'.pc = .returned (.error e) → e = .io)
  | done {actual : String} {r : Except Error Unit}
    (hw : s'.wrote = s.wrote ++ [.done (actual == cfg.sha256) (verdict cfg.sha256 actual)])
    (hs : ∀ n, s.pc.Said n → 2 ≤ n) (ha : s'.actual = some actual) (hpc : s'.pc = .returned r)
    (hf : ∀ e, r = .error e → e = .io ∨ ∃ msg, e = .transfer msg ∧ actual ≠ cfg.sha256 ∧
      verdict cfg.sha256 actual = some msg)

section

variable {sha : Sha256} {plane : RxPlane} {dec : Decrypt} {s s' : RecvState rq} {a : Act Frame}

theorem onHello_self (cfg : SendCfg) :
    onHello cfg.hello = .bind cfg.transferTag cfg.rendezvous.dataPort := by
  simp only [onHello, SendCfg.hello, ne_eq, not_true_eq_false, if_false]
  cases cfg.rendezvous <;> rfl

theorem TellStep.of_write {f : Frame} {pc : RecvPc} {ok : Bool} {live : Option (Live rq)}
    {reports : List Report} (hs : ∀ n, s.pc.Said n → ReplyAt n f ∧ pc.Said (n + 1))
    (hd : ∀ ok e, f ≠ .done ok e) (hf : ∀ e, pc ≠ .returned (.error e)) :
    TellStep cfg s { s.wroteTo f (.ifOk ok pc) with live, reports } := by
  refine .frame rfl (fun n hn => ?_) hd fun e he => ?_
  · obtain ⟨hr, hn'⟩ := hs n hn
    cases ok with
    | true => exact ⟨hr, hn'⟩
    | false => exact ⟨hr, trivial⟩
  · cases ok with
    | true => exact absurd he (hf e)
    | false =>
      cases he
      rfl

theorem RecvStep.tells (h : RecvStep sha plane dec s a s') (ha : Agreed cfg s)
    (hhello : s.pc = .hello → ∀ f, a = .read f → f = cfg.hello)
    (hmanifest : ∀ t, s.pc = .manifest t → ∀ f, a = .read f → f = cfg.manifest) :
    TellStep cfg s s' := by
  cases h with
  | hello h =>
    obtain rfl := hhello h _ rfl
    refine .quiet rfl (fun n hn => ?_) fun e he => ?_
    · rw [h] at hn
      simp only [onHello_self]
      exact hn
    · simp only [onHello_self] at he
      cases he
  | reject h =>
    have hr := ha.rejects
    rw [h] at hr
    cases hr
  | manifest h =>
    obtain rfl := hmanifest _ h _ rfl
    refine .quiet rfl (fun n hn => ?_) fun e he => ?_
    · rw [h] at hn
      simp only [Session.onManifest_self]
      exact hn
    · simp only [Session.onManifest_self] at he
      cases he
  | helloAck h =>
    refine .of_write (fun n hn => ?_) (fun ok e hf => by cases hf) fun e he => by cases he
    rw [h] at hn
    obtain rfl : n = 0 := hn
    exact ⟨⟨_, rfl⟩, rfl⟩
  | manifestAck h =>
    refine .of_write (fun n hn => ?_) (fun ok e hf => by cases hf) fun e he => by cases he
    rw [h] at hn
    obtain rfl : n = 1 := hn
    exact ⟨rfl, le_rfl⟩
  | ack h =>
    refine .of_write (fun n hn => ?_) (fun ok e hf => by cases hf) fun e he => by cases he
    rw [h] at hn
    have hn' : 2 ≤ n := hn
    obtain ⟨n, rfl⟩ := Nat.exists_eq_add_of_le' hn'
    have hsaid : 2 ≤ n + 2 + 1 := by omega
    exact ⟨.inl rfl, hsaid⟩
  | tick h hx hd tMs hf =>
    obtain ⟨-, span, -, rfl⟩ := Collect.report_eq_some (Collect.onTick_eq_ok.mp hf).1
    refine .of_write (fun n hn => ?_) (fun ok e hf => by cases hf) fun e he => by cases he
    rw [h] at hn
    have hn' : 2 ≤ n := hn
    obtain ⟨n, rfl⟩ := Nat.exists_eq_add_of_le' hn'
    have hsaid : 2 ≤ n + 2 + 1 := by omega
    exact ⟨.inl rfl, hsaid⟩
  | @done x actual ok h hx hact =>
    obtain ⟨-, hsha, -⟩ := ha.live x hx
    rw [hsha]
    have hs : ∀ n, s.pc.Said n → 2 ≤ n := fun n hn => by rwa [h] at hn
    cases ok with
    | false => exact .done rfl hs hact rfl fun e he => by cases he; exact .inl rfl
    | true =>
      refine .done rfl hs hact rfl fun e he => ?_
      cases hv : verdict cfg.sha256 actual with
      | none =>
        rw [hv] at he
        cases he
      | some msg =>
        rw [hv] at he
        cases he
        refine .inr ⟨msg, rfl, fun heq => ?_, rfl⟩
        rw [verdict_eq_none.mpr heq] at hv
        cases hv
  | readFail | callFail | setLenFail | recvFail | batchErr =>
    exact .quiet rfl (fun n _ => trivial) fun e he => by cases he; rfl
  | datagramPanic | tickPanic => exact .quiet rfl (fun n _ => trivial) fun e he => by cases he
  | datagram h | tickQuiet h =>
    refine .quiet rfl (fun n hn => hn) fun e he => ?_
    cases h.symm.trans he
  | bindPush h | bindPull h | create h | batch h | batchEnd h | acked h | leave h | sync h
  | hash h =>
    exact .quiet rfl (fun n hn => by rw [h] at hn; exact hn) fun e he => by cases he

/-- A step keeps what was told. -/
theorem TellStep.told (h : TellStep cfg s s') (hlive : ∀ r, s.pc ≠ .returned r)
    (ht : Told cfg s) : Told cfg s' := by
  -- Nothing follows Done, so it was not written before this step.
  have hno : ∀ ok e, .done ok e ∉ s.wrote := fun ok e hd => by
    obtain ⟨⟨r, hr⟩, -⟩ := ht.done ok e hd
    exact hlive r hr
  have hreply : ∀ {f}, ReplyAt s.wrote.length f →
      ∀ i g, (s.wrote ++ [f])[i]? = some g → ReplyAt i g := by
    intro f hf i g hg
    rw [List.getElem?_append] at hg
    split at hg
    · exact ht.reply i g hg
    · rw [List.getElem?_singleton] at hg
      split at hg
      · cases hg
        rwa [show i = s.wrote.length by omega]
      · cases hg
  cases h with
  | quiet hw hs hf =>
    refine ⟨?_, ?_, ?_, fun e he => .inl (hf e he)⟩
    · rw [hw]
      exact hs _ ht.said
    · rw [hw]
      exact ht.reply
    · intro ok e hd
      rw [hw] at hd
      exact absurd hd (hno ok e)
  | frame hw hs hd hf =>
    obtain ⟨hat, hsaid⟩ := hs _ ht.said
    refine ⟨?_, ?_, ?_, fun e he => .inl (hf e he)⟩
    · rw [hw, List.length_append]
      exact hsaid
    · rw [hw]
      exact hreply hat
    · intro ok e hd'
      rw [hw] at hd'
      rcases List.mem_append.mp hd' with hd' | hd'
      · exact absurd hd' (hno ok e)
      · exact absurd (List.mem_singleton.mp hd').symm (hd ok e)
  | @done actual r hw hs ha hpc hf =>
    obtain ⟨n, hn⟩ := Nat.exists_eq_add_of_le' (hs _ ht.said)
    refine ⟨?_, ?_, ?_, ?_⟩
    · rw [hpc]
      trivial
    · rw [hw]
      refine hreply ?_
      rw [hn]
      exact .inr ⟨_, _, rfl⟩
    · intro ok e hd
      rw [hw] at hd
      rcases List.mem_append.mp hd with hd | hd
      · exact absurd hd (hno ok e)
      · cases List.mem_singleton.mp hd
        exact ⟨⟨r, hpc⟩, actual, ha, rfl, rfl⟩
    · intro e he
      cases hpc.symm.trans he
      rcases hf e rfl with he | ⟨msg, rfl, hne, hv⟩
      · exact .inl he
      · refine .inr ⟨msg, rfl, ?_⟩
        rw [hw, hv, beq_eq_false_iff_ne.mpr hne]
        exact List.mem_append_right _ (List.mem_singleton_self _)

end

/-! ## What the sender writes -/

/-- The frames the sender has written where it is in the handshake, -/
def SendPc.asked (cfg : SendCfg) : SendPc → Option (List Frame)
  | .hello => some []
  | .helloAck | .manifest _ => some [cfg.hello]
  | .manifestAck _ => some [cfg.hello, cfg.manifest]
  | _ => none

/-- and those the receiver has read. -/
def RecvPc.heard (cfg : SendCfg) : RecvPc → Option (List Frame)
  | .hello => some []
  | .bind .. | .helloAck .. | .manifest _ => some [cfg.hello]
  | _ => none

/-- The sender's direction of the stream, with what was written on it and read from it. -/
structure Asked (cfg : SendCfg) (s : Sys rq) (put got : List Frame) : Prop where
  wire : Carried s.toRecv put got
  order : put <+: [cfg.hello, cfg.manifest]
  asked : ∀ fs, s.snd.pc.asked cfg = some fs → put = fs
  heard : ∀ fs, s.rcv.pc.heard cfg = some fs → got = fs

theorem asked_start (rq : Raptorq) (S : Session) : Asked S.cfg (S.start rq) [] [] where
  wire := carried_nil
  order := List.nil_prefix
  asked _ h := Option.some.inj h
  heard _ h := Option.some.inj h

theorem SendStep.asks {enc : Encrypt} {s s' : SendState rq} {a : Act Frame} {e : Option Sealed}
    (h : SendStep enc cfg s a e s') :
    (a.put = [] ∧ ∀ fs, s'.pc.asked cfg = some fs → s.pc.asked cfg = some fs) ∨
      ∃ fs, s.pc.asked cfg = some fs ∧ fs ++ a.put <+: [cfg.hello, cfg.manifest] ∧
        ∀ gs, s'.pc.asked cfg = some gs → fs ++ a.put = gs := by
  have late : s'.pc.asked cfg = none →
      ∀ fs, s'.pc.asked cfg = some fs → s.pc.asked cfg = some fs :=
    fun hp fs hfs => by rw [hp] at hfs; cases hfs
  cases h with
  | @hello ok h =>
    refine .inr ⟨[], by rw [h]; rfl, List.prefix_append _ _, fun gs hgs => ?_⟩
    cases ok with
    | true => exact Option.some.inj hgs
    | false => cases hgs
  | @manifest port ok h =>
    refine .inr ⟨[cfg.hello], by rw [h]; rfl, List.prefix_rfl, fun gs hgs => ?_⟩
    cases ok with
    | true => exact Option.some.inj hgs
    | false => cases hgs
  | helloAck h => exact .inl ⟨rfl, fun fs hfs => by rw [h]; exact hfs⟩
  | readerRead | readerFail | readerReturn | drainGo => exact .inl ⟨rfl, fun fs hfs => hfs⟩
  | @drainEmpty k h =>
    refine .inl ⟨rfl, late ?_⟩
    rcases SendState.resume_cases cfg s.v k with hk | ⟨_, -, hk⟩ | hk | hk <;>
      simp only [hk] <;> rfl
  | queued =>
    refine .inl ⟨rfl, late ?_⟩
    simp only
    split <;> rfl
  | @packetsEnd b todo h =>
    refine .inl ⟨rfl, late ?_⟩
    rcases SendState.endTurn_cases s.v todo with hk | ⟨-, hk⟩ | hk <;> simp only [hk] <;> rfl
  | flush h now gone | flushTail h now gone =>
    refine .inl ⟨rfl, late ?_⟩
    cases gone <;> rfl
  | _ => exact .inl ⟨rfl, late rfl⟩

theorem Asked.next {s : Sys rq} {put got : List Frame} (ha : Asked cfg s put got) {f : Frame}
    {q : List Frame} (hq : s.toRecv.queue = f :: q) :
    [cfg.hello, cfg.manifest][got.length]? = some f := by
  have hpre := ha.wire.order.trans ha.order
  rw [hq] at hpre
  obtain ⟨rest, hrest⟩ := hpre
  rw [← hrest, List.append_assoc, List.cons_append, List.getElem?_append_right le_rfl,
    Nat.sub_self]
  rfl

theorem Asked.reads {s : Sys rq} {put got : List Frame} (ha : Asked cfg s put got)
    {a : Act Frame} {i o : Pipe Frame} (hio : Io a s.toRecv s.toSend i o) :
    (s.rcv.pc = .hello → ∀ f, a = .read f → f = cfg.hello) ∧
      ∀ t, s.rcv.pc = .manifest t → ∀ f, a = .read f → f = cfg.manifest := by
  refine ⟨fun hpc f hf => ?_, fun t hpc f hf => ?_⟩
  · subst hf
    cases hio with
    | read hq =>
      have hnext := ha.next hq
      rw [ha.heard [] (by rw [hpc]; rfl)] at hnext
      exact (Option.some.inj hnext).symm
  · subst hf
    cases hio with
    | read hq =>
      have hnext := ha.next hq
      rw [ha.heard [cfg.hello] (by rw [hpc]; rfl)] at hnext
      exact (Option.some.inj hnext).symm

theorem Asked.send {s : Sys rq} {put got : List Frame} (ha : Asked cfg s put got) {enc : Encrypt}
    {a : Act Frame} {e : Option Sealed} {snd : SendState rq} {i o : Pipe Frame}
    (h : SendStep enc cfg s.snd a e snd) (hio : Io a s.toSend s.toRecv i o)
    (table : List Sealed) :
    Asked cfg { s with snd, toSend := i, toRecv := o, table } (put ++ a.put) got := by
  refine ⟨ha.wire.write hio, ?_, ?_, ha.heard⟩
  · rcases h.asks with ⟨hp, -⟩ | ⟨fs, hfs, hpre, -⟩
    · rw [hp, List.append_nil]
      exact ha.order
    · rw [ha.asked fs hfs]
      exact hpre
  · intro gs hgs
    rcases h.asks with ⟨hp, hkeep⟩ | ⟨fs, hfs, -, hnext⟩
    · rw [hp, List.append_nil]
      exact ha.asked gs (hkeep gs hgs)
    · rw [ha.asked fs hfs]
      exact hnext gs hgs

/-- The receiver reads on as long as it has read what it expects. -/
theorem RecvStep.hears {sha : Sha256} {plane : RxPlane} {dec : Decrypt} {s s' : RecvState rq}
    {a : Act Frame} (h : RecvStep sha plane dec s a s')
    (hhello : s.pc = .hello → ∀ f, a = .read f → f = cfg.hello)
    (hmanifest : ∀ t, s.pc = .manifest t → ∀ f, a = .read f → f = cfg.manifest)
    {fs : List Frame} (hfs : s'.pc.heard cfg = some fs) :
    ∃ gs, s.pc.heard cfg = some gs ∧ gs ++ a.got = fs := by
  cases h with
  | hello h =>
    obtain rfl := hhello h _ rfl
    simp only [onHello_self] at hfs
    exact ⟨[], by rw [h]; rfl, Option.some.inj hfs⟩
  | manifest h =>
    obtain rfl := hmanifest _ h _ rfl
    simp only [Session.onManifest_self] at hfs
    cases hfs
  | bindPush h | bindPull h => exact ⟨[cfg.hello], by rw [h]; rfl, Option.some.inj hfs⟩
  | @helloAck t port ok h =>
    cases ok with
    | true => exact ⟨[cfg.hello], by rw [h]; rfl, Option.some.inj hfs⟩
    | false => cases hfs
  | @manifestAck ok | @ack _ _ _ ok | @tick _ _ _ _ _ _ _ ok | @done _ _ ok =>
    cases ok <;> cases hfs
  | datagram h | tickQuiet h =>
    simp only [RecvState.setCol, h] at hfs
    cases hfs
  | _ => cases hfs

theorem Asked.recv {s : Sys rq} {put got : List Frame} (ha : Asked cfg s put got) {sha : Sha256}
    {plane : RxPlane} {dec : Decrypt} {a : Act Frame} {rcv : RecvState rq} {i o : Pipe Frame}
    (h : RecvStep sha plane dec s.rcv a rcv) (hio : Io a s.toRecv s.toSend i o) :
    Asked cfg { s with rcv, toRecv := i, toSend := o } put (got ++ a.got) := by
  refine ⟨ha.wire.read hio, ha.order, ha.asked, fun fs hfs => ?_⟩
  obtain ⟨hhello, hmanifest⟩ := ha.reads hio
  obtain ⟨gs, hgs, rfl⟩ := h.hears hhello hmanifest hfs
  rw [ha.heard gs hgs]

/-! ## How the sender fails -/

/-- The errors of a step of the sender. -/
inductive SendFails (cfg : SendCfg) (s : SendState rq) (a : Act Frame) : Error → Prop
  | io : SendFails cfg s a .io
  | helloAck {f : Frame} (h : s.pc = .helloAck) (ha : a = .read f) (hf : ∀ p, f ≠ .helloAck p) :
    SendFails cfg s a (.expected "HelloAck" f)
  | manifestAck {p : Option UInt16} {f : Frame} (h : s.pc = .manifestAck p) (ha : a = .read f)
    (hf : f ≠ .manifestAck) : SendFails cfg s a (.expected "ManifestAck" f)
  | noPort (h : s.pc = .openPlane none) (hr : cfg.rendezvous = .push) :
    SendFails cfg s a (.protocol "push mode: receiver advertised no UDP port")
  | unopened {port : UInt16} (hr : cfg.rendezvous = .pull port) : SendFails cfg s a (.transfer
      "timed out waiting for receiver to open the data flow (NAT/firewall blocking?)")
  | told {error : Option String} (hm : .done false error ∈ s.chan) :
    SendFails cfg s a (.transfer (error.getD "receiver reported failure"))
  | lost {got : Option Frame} (hm : .closed got ∈ s.chan) : SendFails cfg s a (.lost got)
  | closed (ha : s.pc.alive = true) (hm : s.chan = []) (hr : s.reader = .stopped) :
    SendFails cfg s a (.protocol "control connection lost")
  | silent (h : s.pc = .await) : SendFails cfg s a (.protocol "receiver never sent Done")

theorem finish_error {s : SendState rq} {ok : Bool} {error : Option String} {err : Error}
    (h : (s.finish ok error).pc = .returned (.error err)) :
    ok = false ∧ err = .transfer (error.getD "receiver reported failure") := by
  cases ok with
  | true => cases h
  | false =>
    cases h
    exact ⟨rfl, rfl⟩

theorem Spray.onFeedback_err {v : Spray rq} {m : Feedback} {err : Error}
    (h : v.onFeedback m = .ok (.err err)) : ∃ got, m = .closed got ∧ err = .lost got := by
  cases m with
  | done ok error => cases h
  | closed got =>
    cases h
    exact ⟨got, rfl, rfl⟩
  | decoded i =>
    simp only [onFeedback] at h
    split at h
    · simp only [Checked.bind_eq_ok, Checked.pure_eq_ok, reduceCtorEq, and_false, exists_false] at h
    · cases h
  | progress pkts span tMs =>
    simp only [onFeedback] at h
    split at h
    · simp only [Checked.bind_eq_ok] at h
      obtain ⟨loss, -, h⟩ := h
      split at h
      · cases h
      · simp only [Checked.bind_eq_ok] at h
        obtain ⟨r, -, h⟩ := h
        cases h
    · cases h

theorem SendStep.fails {enc : Encrypt} {s s' : SendState rq} {a : Act Frame} {e : Option Sealed}
    (h : SendStep enc cfg s a e s') {err : Error} (hf : s'.pc = .returned (.error err)) :
    s.pc = .returned (.error err) ∨ SendFails cfg s a err := by
  cases h with
  | readFail | callFail | encodeFail =>
    cases hf
    exact .inr .io
  | @hello ok | @manifest _ ok =>
    cases ok with
    | true => cases hf
    | false =>
      cases hf
      exact .inr .io
  | helloAckOther h hne =>
    cases hf
    exact .inr (.helloAck h rfl hne)
  | manifestAckOther h hne =>
    cases hf
    exact .inr (.manifestAck h rfl hne)
  | readerRead | readerFail | readerReturn | drainGo => exact .inl hf
  | openPushNone h hr =>
    cases hf
    exact .inr (.noPort h hr)
  | openPullTimeout h hr =>
    cases hf
    exact .inr (.unopened hr)
  | drainDone h hm hv =>
    obtain ⟨rfl, rfl⟩ := finish_error hf
    cases Spray.onFeedback_done hv
    exact .inr (.told (by rw [hm]; exact List.mem_cons_self))
  | drainErr h hm hv =>
    cases hf
    obtain ⟨got, rfl, rfl⟩ := Spray.onFeedback_err hv
    exact .inr (.lost (by rw [hm]; exact List.mem_cons_self))
  | drainClosed h hm hr =>
    cases hf
    exact .inr (.closed (by rw [h]; rfl) hm hr)
  | awaitDone h hm =>
    obtain ⟨rfl, rfl⟩ := finish_error hf
    exact .inr (.told (by rw [hm]; exact List.mem_cons_self))
  | awaitFail h =>
    cases hf
    exact .inr (.silent h)
  | @drainEmpty k h =>
    exfalso
    rcases SendState.resume_cases cfg s.v k with hk | ⟨_, -, hk⟩ | hk | hk <;>
      simp only [hk] at hf <;> cases hf
  | queued =>
    exfalso
    simp only at hf
    split at hf <;> cases hf
  | @packetsEnd b todo h =>
    exfalso
    rcases SendState.endTurn_cases s.v todo with hk | ⟨-, hk⟩ | hk <;> simp only [hk] at hf <;>
      cases hf
  | flush h now gone | flushTail h now gone => cases gone <;> cases hf
  | _ => cases hf

/-- What a step does to the channel: nothing, one more message from the reader task, or
one less. -/
inductive ListenStep (s : SendState rq) (a : Act Frame) (s' : SendState rq) : Prop
  | keeps (ha : a.got = [] ∨ s.pc.replies ≠ none) (hchan : s'.chan = s.chan)
    (hr : s'.reader = s.reader ∨ s.pc.replies ≠ none ∧ s'.reader = .running ∨
      s.reader = .returning ∧ s'.reader = .stopped)
  | heard {f : Frame} (ha : a = .read f) (hr : s.reader = .running)
    (hchan : s'.chan = s.chan ++ [(readerTask f).1])
    (hr' : s'.reader = if (readerTask f).2 then .running else .returning)
  | closed (ha : a = .readFail) (hchan : s'.chan = s.chan ++ [.closed none])
    (hr : s'.reader = .returning)
  | taken {m : Feedback} (ha : a = .tau) (hchan : s.chan = m :: s'.chan)
    (hr : s'.reader = s.reader) (hm : s'.pc.alive = true → ∀ ok e, m ≠ .done ok e)

theorem SendStep.listens {enc : Encrypt} {s s' : SendState rq} {a : Act Frame}
    {e : Option Sealed} (h : SendStep enc cfg s a e s') : ListenStep s a s' := by
  cases h with
  | helloAck h | helloAckOther h | manifestAckOther h =>
    exact .keeps (.inr (by rw [h]; simp [SendPc.replies])) rfl (.inl rfl)
  | manifestAck h =>
    have hne : s.pc.replies ≠ none := by rw [h]; simp [SendPc.replies]
    exact .keeps (.inr hne) rfl (.inr (.inl ⟨hne, rfl⟩))
  | readerRead h => exact .heard rfl h rfl rfl
  | readerFail => exact .closed rfl rfl rfl
  | readerReturn h => exact .keeps (.inl rfl) rfl (.inr (.inr ⟨h, rfl⟩))
  | drainGo h hm hv =>
    refine .taken rfl hm rfl fun _ ok e he => ?_
    subst he
    cases hv
  | drainDone h hm | drainErr h hm | drainPanic h hm | awaitDone h hm =>
    exact .taken rfl hm rfl fun ha => by cases ha
  | awaitOther h hm hd => exact .taken rfl hm rfl fun _ => hd
  | _ => exact .keeps (.inl rfl) rfl (.inl rfl)

/-! ## Causes -/

namespace Session

variable {S : Session} {s t : Sys rq}

/-- The hash of the receiver's file is not the sender's, and the receiver said so. -/
def Mismatch (S : Session) (s : Sys rq) (msg : String) : Prop :=
  ∃ actual, s.rcv.actual = some actual ∧ verdict S.cfg.sha256 actual = some msg ∧
    .done false (some msg) ∈ s.rcv.wrote

/-- Why the sender fails: a call or a write of its own, a cut, a wait for Done with
nothing left to spray, a flow that was not opened, or the receiver's verdict. -/
inductive SendCause (S : Session) (s : Sys rq) : Error → Prop
  | io : SendCause S s .io
  | lost (hc : s.toSend.cut = true) : SendCause S s (.lost none)
  | closed (hc : s.toSend.cut = true) : SendCause S s (.protocol "control connection lost")
  | silent (hi : s.snd.v.Idle S.cfg) : SendCause S s (.protocol "receiver never sent Done")
  | unopened {port : UInt16} (hr : S.cfg.rendezvous = .pull port) : SendCause S s (.transfer
      "timed out waiting for receiver to open the data flow (NAT/firewall blocking?)")
  | mismatch {msg : String} (h : S.Mismatch s msg) : SendCause S s (.transfer msg)

/-- Why the receiver fails: a call or a write of its own, or its verdict. -/
inductive RecvCause (S : Session) (s : Sys rq) : Error → Prop
  | io : RecvCause S s .io
  | mismatch {msg : String} (h : S.Mismatch s msg) : RecvCause S s (.transfer msg)

/-- Two ends that go by the protocol. -/
structure Honest (S : Session) (s : Sys rq) : Prop where
  told : Told S.cfg s.rcv
  asked : ∃ put got, Asked S.cfg s put got
  idle : IdleInv S.cfg s.snd
  lost : ∀ got, .closed got ∈ s.snd.chan → got = none ∧ s.toSend.cut = true
  /-- The reader task only stops at Done or at a cut. -/
  stopped : s.snd.pc.alive = true → s.snd.reader ≠ .none → s.snd.reader ≠ .running →
    (∃ ok e, .done ok e ∈ s.snd.chan) ∨ s.toSend.cut = true
  failed : ∀ e, s.snd.pc = .returned (.error e) → S.SendCause s e

theorem honest_start (rq : Raptorq) (S : Session) : S.Honest (S.start rq) where
  told := told_init
  asked := ⟨[], [], asked_start rq S⟩
  idle := idleInv_init S.cfg
  lost got h := by cases h
  stopped _ h := absurd rfl h
  failed e h := by cases h

theorem SendCause.mono {e : Error} (h : S.SendCause s e)
    (hcut : s.toSend.cut = true → t.toSend.cut = true)
    (hidle : s.snd.v.Idle S.cfg → t.snd.v.Idle S.cfg)
    (hrcv : ∀ ok e, .done ok e ∈ s.rcv.wrote → t.rcv = s.rcv) : S.SendCause t e := by
  cases h with
  | io => exact .io
  | lost hc => exact .lost (hcut hc)
  | closed hc => exact .closed (hcut hc)
  | silent hi => exact .silent (hidle hi)
  | unopened hr => exact .unopened hr
  | mismatch h =>
    obtain ⟨actual, ha, hv, hw⟩ := h
    have he := hrcv _ _ hw
    exact .mismatch ⟨actual, he ▸ ha, hv, he ▸ hw⟩

theorem Honest.mismatch (hh : S.Honest s) {error : Option String}
    (hw : .done false error ∈ s.rcv.wrote) : ∃ msg, error = some msg ∧ S.Mismatch s msg := by
  obtain ⟨-, actual, ha, hok, rfl⟩ := hh.told.done false error hw
  cases hv : verdict S.cfg.sha256 actual with
  | none =>
    rw [verdict_eq_none.mp hv] at hok
    simp at hok
  | some msg =>
    rw [hv] at hw
    exact ⟨msg, rfl, actual, ha, hv, hw⟩

theorem reply_of_hears {heard : List Frame} {taken ms : List Feedback}
    (hh : Hears S.cfg s heard taken ms) (ht : Told S.cfg s.rcv) {f : Frame} {q : List Frame}
    (hq : s.toSend.queue = f :: q) : ReplyAt heard.length f := by
  refine ht.reply _ _ ?_
  obtain ⟨rest, hrest⟩ := hh.wire.order
  rw [← hrest, hq, List.append_assoc, List.cons_append, List.getElem?_append_right le_rfl,
    Nat.sub_self]
  rfl

theorem feedback_of_hears {heard : List Frame} {taken ms : List Feedback}
    (hh : Hears S.cfg s heard taken ms) (ht : Told S.cfg s.rcv) (hr : s.snd.reader = .running)
    {f : Frame} {q : List Frame} (hq : s.toSend.queue = f :: q) :
    (readerTask f).2 = true ∨ ∃ ok e, f = .done ok e := by
  obtain ⟨port, rest, tail, hheard, -⟩ := hh.late (by rw [hr]; simp)
  have hreply := reply_of_hears hh ht hq
  rw [hheard] at hreply
  exact hreply

theorem readerTask_go {f : Frame} (h : (readerTask f).2 = true) (got : Option Frame) :
    (readerTask f).1 ≠ .closed got := by
  cases f with
  | blockDecoded | progress => exact fun he => by cases he
  | _ => cases h

/-- The errors that remain between two ends of this version. -/
theorem Honest.cause (hh : S.Honest s) (h : S.Reachable s) {a : Act Frame} {i o : Pipe Frame}
    (hio : Io a s.toSend s.toRecv i o) {e : Error} (hf : SendFails S.cfg s.snd a e) :
    S.SendCause s e := by
  obtain ⟨heard, taken, ms, hears⟩ := h.hears
  cases hf with
  | io => exact .io
  | helloAck hpc ha hf =>
    subst ha
    cases hio with
    | read hq =>
      have hreply := reply_of_hears hears hh.told hq
      rw [(hears.replied [] (by rw [hpc]; rfl)).1] at hreply
      obtain ⟨p, rfl⟩ := hreply
      exact absurd rfl (hf p)
  | @manifestAck p f hpc ha hf =>
    subst ha
    cases hio with
    | read hq =>
      have hreply := reply_of_hears hears hh.told hq
      rw [(hears.replied [.helloAck p] (by rw [hpc]; rfl)).1] at hreply
      exact absurd hreply hf
  | noPort hpc hr =>
    obtain ⟨ports, hopens⟩ := h.opens
    have hhand := hopens.handInv
    have hmatch := hhand.port.wrote none (hhand.advertised none (by rw [hpc]; rfl))
    rw [hr] at hmatch
    obtain ⟨port, hport, -⟩ := hmatch
    cases hport
  | unopened hr => exact .unopened hr
  | told hm =>
    obtain ⟨msg, rfl, hmis⟩ := hh.mismatch (h.inv.chan _ hm _ rfl)
    exact .mismatch hmis
  | lost hm =>
    obtain ⟨rfl, hc⟩ := hh.lost _ hm
    exact .lost hc
  | closed ha hm hr =>
    rcases hh.stopped ha (by rw [hr]; simp) (by rw [hr]; simp) with ⟨ok, e, hd⟩ | hc
    · rw [hm] at hd
      cases hd
    · exact .closed hc
  | silent hpc => exact .silent (hh.idle.await hpc)

theorem Honest.send (hh : S.Honest s) (h : S.Reachable s) {a : Act Frame} {e : Option Sealed}
    {snd : SendState rq} {i o : Pipe Frame} (hst : SendStep S.enc S.cfg s.snd a e snd)
    (hio : Io a s.toSend s.toRecv i o) :
    S.Honest { s with snd, toSend := i, toRecv := o, table := s.table ++ e.toList } := by
  have hcut : i.cut = s.toSend.cut := by cases hio <;> rfl
  obtain ⟨put, got, hasked⟩ := hh.asked
  obtain ⟨heard, taken, ms, hears⟩ := h.hears
  refine ⟨hh.told, ⟨_, _, hasked.send hst hio _⟩, hst.idleInv hh.idle, ?_, ?_, ?_⟩
  · intro g hg
    simp only [hcut]
    cases hst.listens with
    | keeps _ hchan => exact hh.lost g (hchan ▸ hg)
    | @heard f ha hr hchan =>
      simp only [hchan] at hg
      rcases List.mem_append.mp hg with hg | hg
      · exact hh.lost g hg
      · subst ha
        cases hio with
        | read hq =>
          have hg' := List.mem_singleton.mp hg
          rcases feedback_of_hears hears hh.told hr hq with hgo | ⟨ok, e, rfl⟩
          · exact absurd hg'.symm (readerTask_go hgo g)
          · cases hg'
    | closed ha hchan =>
      simp only [hchan] at hg
      rcases List.mem_append.mp hg with hg | hg
      · exact hh.lost g hg
      · subst ha
        cases hio with
        | readFail _ hc =>
          cases List.mem_singleton.mp hg
          exact ⟨rfl, hc⟩
    | taken _ hchan => exact hh.lost g (by rw [hchan]; exact List.mem_cons_of_mem _ hg)
  · intro ha hn hr
    have ha' := hst.alive ha
    simp only [hcut]
    cases hst.listens with
    | keeps _ hchan hread =>
      rw [hchan]
      rcases hread with hread | ⟨-, hread⟩ | ⟨hread, -⟩
      · exact hh.stopped ha' (hread ▸ hn) (hread ▸ hr)
      · exact absurd hread hr
      · exact hh.stopped ha' (by rw [hread]; simp) (by rw [hread]; simp)
    | @heard f hact hrun hchan hr' =>
      subst hact
      cases hio with
      | read hq =>
        rcases feedback_of_hears hears hh.told hrun hq with hgo | ⟨ok, e, rfl⟩
        · rw [hgo] at hr'
          exact absurd hr' hr
        · exact .inl ⟨ok, e, by rw [hchan]; exact List.mem_append_right _ List.mem_cons_self⟩
    | closed hact hchan =>
      subst hact
      cases hio with
      | readFail _ hc => exact .inr hc
    | taken _ hchan hread hm =>
      rcases hh.stopped ha' (hread ▸ hn) (hread ▸ hr) with ⟨ok, e, hd⟩ | hc
      · rw [hchan] at hd
        rcases List.mem_cons.mp hd with hd | hd
        · exact absurd hd.symm (hm ha ok e)
        · exact .inl ⟨ok, e, hd⟩
      · exact .inr hc
  · intro err herr
    have hcause : S.SendCause s err := by
      rcases hst.fails herr with hr | hf
      · exact hh.failed err hr
      · exact hh.cause h hio hf
    exact hcause.mono (fun hc => hcut.trans hc) (hst.idle hh.idle) fun _ _ _ => rfl

theorem Honest.recv (hh : S.Honest s) (h : S.Reachable s) {a : Act Frame} {rcv : RecvState rq}
    {i o : Pipe Frame} (hst : RecvStep S.sha S.rxPlane (S.aead s.table) s.rcv a rcv)
    (hio : Io a s.toRecv s.toSend i o) : S.Honest { s with rcv, toRecv := i, toSend := o } := by
  obtain ⟨put, got, hasked⟩ := hh.asked
  obtain ⟨hhello, hmanifest⟩ := hasked.reads hio
  have hcut : s.toSend.cut = true → o.cut = true := fun hc => (hio.out_of_cut hc).1
  refine ⟨(hst.tells h.inv.agreed hhello hmanifest).told hst.not_returned hh.told,
    ⟨_, _, hasked.recv hst hio⟩, hh.idle, ?_, ?_, ?_⟩
  · intro g hg
    exact (hh.lost g hg).imp_right hcut
  · intro ha hn hr
    exact (hh.stopped ha hn hr).imp_right hcut
  · intro e he
    refine (hh.failed e he).mono hcut (fun hi => hi) fun ok e hd => ?_
    obtain ⟨⟨r, hr⟩, -⟩ := hh.told.done ok e hd
    exact absurd hr (hst.not_returned r)

theorem Reachable.honest (h : S.Reachable s) : S.Honest s := by
  refine Runs.Reachable.invariant_of h (Q := S.Reachable) (fun s hs => hs) S.Honest ?_
    fun s t hr _ hh hst => ?_
  · intro s he
    subst he
    exact honest_start rq S
  · cases hst with
    | send hst hio => exact hh.send hr hst hio
    | recv hst hio => exact hh.recv hr hst hio
    | cutToRecv n =>
      obtain ⟨put, got, ha⟩ := hh.asked
      refine ⟨hh.told, ⟨put, got, ha.wire.cutAt n, ha.order, ha.asked, ha.heard⟩, hh.idle,
        hh.lost, hh.stopped, fun e he => ?_⟩
      exact (hh.failed e he).mono (fun hc => hc) (fun hi => hi) fun _ _ _ => rfl
    | cutToSend n =>
      obtain ⟨put, got, ha⟩ := hh.asked
      refine ⟨hh.told, ⟨put, got, ha.wire, ha.order, ha.asked, ha.heard⟩, hh.idle,
        fun g hg => ⟨(hh.lost g hg).1, rfl⟩, fun _ _ _ => .inr rfl, fun e he => ?_⟩
      exact (hh.failed e he).mono (fun _ => rfl) (fun hi => hi) fun _ _ _ => rfl

theorem Honest.recvCause (hh : S.Honest s) {e : Error} (he : s.rcv.pc = .returned (.error e)) :
    S.RecvCause s e := by
  rcases hh.told.failed e he with rfl | ⟨msg, rfl, hw⟩
  · exact .io
  · obtain ⟨msg', hmsg, hmis⟩ := hh.mismatch hw
    cases hmsg
    exact .mismatch hmis

/-- With the ideal AEAD and a sound code the receiver has no verdict to give. -/
theorem Reachable.not_mismatch (hrq : rq.Sound) (hp : S.cfg.plane = .sealed .new)
    (ha : S.aead = decryptTable) (h : S.Reachable s) (msg : String) : ¬ S.Mismatch s msg := by
  have key : ∀ e, .done false e ∉ s.rcv.wrote := by
    have hQ : ∀ s : Sys rq, S.Reachable s → S.Inv s ∧ S.SealedInv s :=
      fun s hs => ⟨hs.inv, hs.sealedInv hp ha⟩
    refine Runs.Reachable.invariant_of h hQ (fun s => ∀ e, .done false e ∉ s.rcv.wrote) ?_
      fun s t hq _ hi hst => ?_
    · intro s he e hd
      subst he
      cases hd
    · cases hst with
      | send | cutToRecv | cutToSend => exact hi
      | recv hst hio =>
        intro e hd
        rcases hst.wrote with ⟨f, ok, rfl, hw⟩ | ⟨-, hw⟩
        · simp only [hw, List.mem_append, List.mem_singleton] at hd
          rcases hd with hd | hd
          · exact hi e hd
          · cases done_ok hrq hq.1 hq.2 hst hd.symm
        · simp only [hw] at hd
          exact hi e hd
  intro hmis
  obtain ⟨_, -, -, hw⟩ := hmis
  exact key _ hw

/-- **Failures have causes.** In every state of every interleaving, in either mode, over
any cuts, failed calls and datagrams: if the sender has returned an error, it is that of
a call or write of its own, or the control stream was cut, or Done did not come with
nothing left to spray, or, pulling, the flow was not opened, or it is the receiver's own
verdict on the hash of its file; if the receiver has, it is that of a call or write of its
own, or this verdict. So neither end ever returns an error about the other's frames. With
the ideal AEAD and a sound code, in a sealed session, there is no such verdict. -/
theorem failures_have_causes (S : Session) {s : Sys rq} (h : S.Reachable s) :
    (∀ e, s.snd.pc = .returned (.error e) → S.SendCause s e) ∧
    (∀ e, s.rcv.pc = .returned (.error e) → S.RecvCause s e) ∧
    (rq.Sound → S.cfg.plane = .sealed .new → S.aead = decryptTable →
      ∀ msg, ¬ S.Mismatch s msg) := by
  have hh := h.honest
  refine ⟨hh.failed, fun e he => hh.recvCause he, fun hrq hp ha msg => ?_⟩
  exact h.not_mismatch hrq hp ha msg

/-- The stream of the tiny file is cut after the handshake. -/
theorem failures_have_causes_cut : ∃ s : Sys .repetition, tiny.Reachable s ∧
    s.snd.pc = .returned (.error (.lost none)) ∧ s.toSend.cut = true := by
  have h₀ := connected_reachable .repetition tiny rfl 9
  have h₁ := Runs.Reachable.next h₀ (Step.cutToSend 0)
  have h₂ := Reachable.send h₁ (.readerFail rfl) (.readFail rfl rfl)
  have h₃ := Reachable.send h₂ (.drainErr (k := .top) rfl rfl rfl) .tau
  refine ⟨_, h₃, rfl, ?_⟩
  obtain ⟨hsend, -, -⟩ := failures_have_causes tiny h₃
  cases hsend (.lost none) rfl with
  | lost hc => exact hc

end Session

end AtpExperiment
