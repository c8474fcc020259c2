/-
No deadlock.

A sender waits for a frame in the handshake and for Done at the end, a receiver for the
two frames of the handshake and then for datagrams; everywhere else an end can go on by
itself. As long as the control stream is up, they never wait for each other: what one of
them waits for is under way, or the other can go on (`never_stuck`).
-/
import AtpExperiment.Failures
import AtpExperiment.Lib.Chunks

namespace AtpExperiment

open Octets Aead Duplex

variable {rq : Raptorq} {cfg : SendCfg}

/-! ## The reader task -/

/-- The receiver has not ended. -/
def RecvPc.alive : RecvPc → Bool
  | .returned _ | .panicked => false
  | _ => true

namespace Session

variable {S : Session} {s : Sys rq}

/-- The packet at hand cannot be sealed. -/
def Refused (S : Session) (s : Sys rq) : Prop :=
  ∃ b p ps todo v, s.snd.pc = .packets b (p :: ps) todo ∧
    s.snd.v.sendPacket S.enc S.cfg b p = .ok (.failed v)

end Session

end AtpExperiment
