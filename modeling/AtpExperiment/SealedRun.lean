/-
Histories of one sealer and one opener under one key, with the ideal AEAD:
any seal calls, and any buffers given to the opener in between.

`opened_was_sealed`: what opens is a datagram sealed before under the
opener's tag, with the pair that was sealed, and never twice.
-/
import AtpExperiment.SealedFacts

namespace AtpExperiment

open Octets Aead Sealed

namespace SealedRun

/-- A call on the sealed plane. -/
inductive Call
  /-- `seal_datagram_into`, appending to a buffer that holds `out`. -/
  | sealInto (transferTag : UInt64) (blockIndex : UInt32) (payload out : Octets)
  /-- `open_datagram` on the opener's tag. -/
  | openBuf (buf : Octets)

/-- What a call was seen to do. -/
inductive Seen
  | sealed (transferTag : UInt64) (blockIndex : UInt32) (payload datagram : Octets)
  | sealFailed
  | opened (buf : Octets) (blockIndex : UInt32) (payload : Octets)
  | dropped (buf : Octets)
  deriving DecidableEq, Repr

/-- The sealer, the opener's window, and the AEAD's table. -/
structure State where
  sealer : SymbolSealer
  window : ReplayWindow
  table : List Sealed

def State.new : State := ⟨.new, .new, []⟩

/-- One call. -/
def call (enc : Encrypt) (t : UInt64) (s : State) : Call → Checked (Seen × State)
  | .sealInto tag b payload out =>
    let r := sealDatagramInto enc s.sealer tag b payload out
    match r.sealed with
    | none => return (.sealFailed, { s with sealer := r.sealer })
    | some e => return (.sealed tag b payload (r.out.drop out.length),
        { s with sealer := r.sealer, table := s.table ++ [e] })
  | .openBuf buf => do
    let (r, window) ← openDatagram (decryptTable s.table) s.window t buf
    match r with
    | none => return (.dropped buf, { s with window })
    | some (b, payload) => return (.opened buf b payload, { s with window })

/-- A history of calls, first to last. -/
def run (enc : Encrypt) (t : UInt64) (s : State) : List Call → Checked (List Seen × State)
  | [] => return ([], s)
  | c :: cs => do
    let (x, s) ← call enc t s c
    let (xs, s) ← run enc t s cs
    return (x :: xs, s)

def Call.isSeal : Call → Bool
  | .sealInto .. => true
  | .openBuf _ => false

/-- The buffer an open returned a body for. -/
def Seen.openedBuf : Seen → Option Octets
  | .opened buf _ _ => some buf
  | _ => none

/-- The datagram a seal call produced. -/
def Seen.sealedBuf : Seen → Option Octets
  | .sealed _ _ _ d => some d
  | _ => none

/-- The buffers that opened, in order. -/
def openedBufs (xs : List Seen) : List Octets := xs.filterMap Seen.openedBuf

/-- The datagrams that were sealed, in order. -/
def sealedBufs (xs : List Seen) : List Octets := xs.filterMap Seen.sealedBuf

theorem openedBufs_append (xs : List Seen) (x : Seen) :
    openedBufs (xs ++ [x]) = openedBufs xs ++ x.openedBuf.toList := by
  cases x <;> simp [openedBufs, Seen.openedBuf, List.filterMap_cons]

theorem openedBufs_same (xs : List Seen) {x : Seen} (h : x.openedBuf = none) :
    openedBufs (xs ++ [x]) = openedBufs xs := by
  rw [openedBufs_append, h, Option.toList_none, List.append_nil]

theorem sealedBufs_append (xs : List Seen) (x : Seen) :
    sealedBufs (xs ++ [x]) = sealedBufs xs ++ x.sealedBuf.toList := by
  cases x <;> simp [sealedBufs, Seen.sealedBuf, List.filterMap_cons]

theorem sealedBufs_same (xs : List Seen) {x : Seen} (h : x.sealedBuf = none) :
    sealedBufs (xs ++ [x]) = sealedBufs xs := by
  rw [sealedBufs_append, h, Option.toList_none, List.append_nil]

/-- Every opened buffer was sealed before it, under tag `t`, with the pair
it returned. -/
def Genuine (t : UInt64) (xs : List Seen) : Prop :=
  ∀ pre buf b payload post, xs = pre ++ .opened buf b payload :: post →
    .sealed t b payload buf ∈ pre

theorem Genuine.append {t : UInt64} {xs : List Seen} {x : Seen} (h : Genuine t xs)
    (hx : ∀ buf b payload, x = .opened buf b payload → .sealed t b payload buf ∈ xs) :
    Genuine t (xs ++ [x]) := by
  intro pre buf b payload post he
  -- The split is at the new call, or inside the history before it.
  rcases List.eq_nil_or_concat post with rfl | ⟨post', y, rfl⟩
  · obtain ⟨rfl, hy⟩ := List.append_inj' he rfl
    exact hx buf b payload (List.singleton_inj.mp hy)
  · have he' : xs ++ [x] = (pre ++ .opened buf b payload :: post') ++ [y] := by simpa using he
    exact h pre buf b payload post' (List.append_inj' he' rfl).1

/-- A table entry is the record of a seal call of the history, under a
sequence number below `n`. -/
def EntryOf (xs : List Seen) (n : Nat) (e : Sealed) : Prop :=
  ∃ tag b payload q, .sealed tag b payload (header tag q ++ e.cipher ++ e.tag) ∈ xs ∧
    SealedAs e tag q b payload ∧ q.toNat < n

theorem EntryOf.mono {xs ys : List Seen} {m n : Nat} {e : Sealed} (h : EntryOf xs m e)
    (hmn : m ≤ n) : EntryOf (xs ++ ys) n e := by
  obtain ⟨tag, b, payload, q, hx, hs, hq⟩ := h
  exact ⟨tag, b, payload, q, List.mem_append_left _ hx, hs, by omega⟩

/-- What holds after a history `xs` with `n` seal calls. -/
structure Inv (t : UInt64) (xs : List Seen) (n : Nat) (s : State) : Prop where
  counter : s.sealer.seq.toNat = n
  table : ∀ e ∈ s.table, EntryOf xs n e
  window : s.window.Holds ((openedBufs xs).map wireSeq)
  once : ((openedBufs xs).map wireSeq).Nodup
  genuine : Genuine t xs
  sealed : ∀ d ∈ sealedBufs xs, (wireSeq d).toNat < n
  distinct : ((sealedBufs xs).map wireSeq).Nodup

theorem inv_new (t : UInt64) : Inv t [] 0 .new where
  counter := rfl
  table := by simp [State.new]
  window := ReplayWindow.holds_new
  once := by simp [openedBufs]
  genuine := by intro pre buf b payload post h; simp at h
  sealed := by simp [sealedBufs]
  distinct := by simp [sealedBufs]

/-! ## One call -/

theorem inv_seal (enc : Encrypt) {t : UInt64} {xs : List Seen} {n : Nat} {s : State}
    (hi : Inv t xs n s) (hn : n + 1 < 2 ^ 64) (tag : UInt64) (b : UInt32) (payload out : Octets) :
    ∃ x s', call enc t s (.sealInto tag b payload out) = .ok (x, s') ∧
      Inv t (xs ++ [x]) (n + 1) s' := by
  have hseq : (s.sealer.seq + 1).toNat = n + 1 := by
    rw [ReplayWindow.toNat_succ (by rw [hi.counter]; exact hn), hi.counter]
  rw [call, sealDatagramInto_eq]
  cases hc : encryptCall enc (seqNonce s.sealer.seq) (header tag s.sealer.seq)
      (sealBody b payload) with
  | none =>
    refine ⟨.sealFailed, _, rfl, hseq, fun e he => (hi.table e he).mono (by omega), ?_, ?_,
      hi.genuine.append (fun _ _ _ h => by cases h), fun d hd => ?_, ?_⟩
    · rw [openedBufs_same xs rfl]; exact hi.window
    · rw [openedBufs_same xs rfl]; exact hi.once
    · rw [sealedBufs_same xs rfl] at hd
      have := hi.sealed d hd
      omega
    · rw [sealedBufs_same xs rfl]; exact hi.distinct
  | some e =>
    obtain ⟨hnonce, haad, hplain⟩ := encryptCall_eq_some hc
    have hd : (out ++ header tag s.sealer.seq ++ e.cipher ++ e.tag).drop out.length =
        header tag s.sealer.seq ++ e.cipher ++ e.tag := by simp
    have hw : wireSeq (header tag s.sealer.seq ++ e.cipher ++ e.tag) = s.sealer.seq := by
      rw [List.append_assoc, wireSeq_header]
    refine ⟨.sealed tag b payload (header tag s.sealer.seq ++ e.cipher ++ e.tag), _,
      by simp only [hd]; rfl, hseq, ?_, ?_, ?_,
      hi.genuine.append (fun _ _ _ h => by cases h), ?_, ?_⟩
    · intro e' he'
      rcases List.mem_append.mp he' with he' | he'
      · exact (hi.table e' he').mono (by omega)
      · rw [List.mem_singleton.mp he']
        exact ⟨tag, b, payload, s.sealer.seq, by simp, ⟨hnonce, haad, hplain⟩,
          by rw [hi.counter]; omega⟩
    · rw [openedBufs_same xs rfl]; exact hi.window
    · rw [openedBufs_same xs rfl]; exact hi.once
    · rw [sealedBufs_append]
      intro d hd
      rcases List.mem_append.mp hd with hd | hd
      · have := hi.sealed d hd
        omega
      · rw [List.mem_singleton.mp hd, hw, hi.counter]
        omega
    · -- The new number is the counter, above every number sealed so far.
      have hnew : s.sealer.seq ∉ (sealedBufs xs).map wireSeq := by
        intro hmem
        obtain ⟨d, hd, he⟩ := List.mem_map.mp hmem
        have := hi.sealed d hd
        rw [he, hi.counter] at this
        omega
      rw [sealedBufs_append, List.map_append, List.nodup_append_comm]
      refine hi.distinct.cons fun hmem => hnew ?_
      rwa [hw] at hmem

theorem inv_open (enc : Encrypt) {t : UInt64} {xs : List Seen} {n : Nat} {s : State}
    (hi : Inv t xs n s) (hn : n < 2 ^ 64) (buf : Octets) :
    ∃ x s', call enc t s (.openBuf buf) = .ok (x, s') ∧ Inv t (xs ++ [x]) n s' := by
  -- An authentic number was sealed, so it is below the counter.
  have hauth : ∀ aad body tag plain,
      decryptTable s.table (seqNonce (wireSeq buf)) aad body tag = some plain →
      wireSeq buf < u64Max := by
    intro aad body tag plain h
    obtain ⟨_, _, _, q, -, hs, hq⟩ := hi.table _ (decryptTable_eq_some h)
    rw [seqNonce_inj hs.nonce, UInt64.lt_iff_toNat_lt]
    have : u64Max.toNat = 2 ^ 64 - 1 := rfl
    omega
  obtain ⟨r, w', hr⟩ := openDatagram_total (t := t) hi.window hauth
  have hcall : call enc t s (.openBuf buf) = match r with
      | none => .ok (.dropped buf, { s with window := w' })
      | some (b, payload) => .ok (.opened buf b payload, { s with window := w' }) := by
    simp only [call, hr, Checked.ok_bind]
    rcases r with _ | ⟨b, payload⟩ <;> rfl
  rcases r with _ | ⟨b, payload⟩
  · obtain rfl := openDatagram_none hr
    refine ⟨.dropped buf, _, hcall, hi.counter, fun e he => (hi.table e he).mono le_rfl, ?_, ?_,
      hi.genuine.append (fun _ _ _ h => by cases h), ?_, ?_⟩
    · rw [openedBufs_same xs rfl]; exact hi.window
    · rw [openedBufs_same xs rfl]; exact hi.once
    · rw [sealedBufs_same xs rfl]; exact hi.sealed
    · rw [sealedBufs_same xs rfl]; exact hi.distinct
  · obtain ⟨o⟩ := openDatagram_some hr
    obtain ⟨e, he, hcipher, htag, hsame⟩ := o.sealedAs
    obtain ⟨tag, b', payload', q, hx, hs, hq⟩ := hi.table e he
    obtain ⟨rfl, rfl, rfl, rfl⟩ := hsame hs
    have hsealed : .sealed t b payload buf ∈ xs := by
      rw [o.split, ← hcipher, ← htag]
      exact hx
    obtain ⟨hh, hfresh⟩ := o.holds hi.window
      (ReplayWindow.lt_max_iff.mp (hauth _ _ _ _ o.decrypted))
    refine ⟨.opened buf b payload, _, hcall, hi.counter,
      fun e he => (hi.table e he).mono le_rfl, ?_, ?_, hi.genuine.append ?_, ?_, ?_⟩
    · rw [openedBufs_append, List.map_append]; exact hh
    · rw [openedBufs_append, List.map_append, List.nodup_append_comm]
      exact hi.once.cons hfresh
    · intro buf' b' payload' he
      cases he
      exact hsealed
    · rw [sealedBufs_same xs rfl]; exact hi.sealed
    · rw [sealedBufs_same xs rfl]; exact hi.distinct

/-! ## Histories -/

theorem inv_run (enc : Encrypt) {t : UInt64} {xs : List Seen} {n : Nat} {s : State}
    (hi : Inv t xs n s) (cs : List Call) (hn : n + cs.countP Call.isSeal < 2 ^ 64) :
    ∃ ys s', run enc t s cs = .ok (ys, s') ∧
      Inv t (xs ++ ys) (n + cs.countP Call.isSeal) s' := by
  induction cs generalizing xs n s with
  | nil => exact ⟨[], s, rfl, by simpa using hi⟩
  | cons c cs ih =>
    have next : ∀ {x s₁ m}, call enc t s c = .ok (x, s₁) → Inv t (xs ++ [x]) m s₁ →
        m + cs.countP Call.isSeal = n + (c :: cs).countP Call.isSeal →
        ∃ ys s', run enc t s (c :: cs) = .ok (ys, s') ∧
          Inv t (xs ++ ys) (n + (c :: cs).countP Call.isSeal) s' := by
      intro x s₁ m hc hi₁ hm
      obtain ⟨ys, s', hys, hi'⟩ := ih hi₁ (by omega)
      refine ⟨x :: ys, s', by simp [run, hc, hys, pure, Except.pure], ?_⟩
      rw [← hm]
      simpa using hi'
    cases c with
    | sealInto tag b payload out =>
      have hc : (Call.sealInto tag b payload out :: cs).countP Call.isSeal =
          cs.countP Call.isSeal + 1 := List.countP_cons_of_pos rfl
      obtain ⟨x, s₁, hx, hi₁⟩ := inv_seal enc hi (by omega) tag b payload out
      exact next hx hi₁ (by omega)
    | openBuf buf =>
      have hc : (Call.openBuf buf :: cs).countP Call.isSeal = cs.countP Call.isSeal :=
        List.countP_cons_of_neg Bool.false_ne_true
      obtain ⟨x, s₁, hx, hi₁⟩ := inv_open enc hi (by omega) buf
      exact next hx hi₁ (by omega)

/-- **No forgery, and at most one delivery.** For every history of fewer
than `2^64 - 1` seal calls (any tags, pairs and buffers) and any buffers
opened in between: the history runs; every buffer that opens is byte for
byte a datagram sealed before it under the opener's tag, and returns the
pair that was sealed; sealed datagrams are pairwise distinct and none opens
twice. -/
theorem opened_was_sealed (enc : Encrypt) (t : UInt64) (cs : List Call)
    (hn : cs.countP Call.isSeal < 2 ^ 64 - 1) :
    ∃ xs s, run enc t .new cs = .ok (xs, s) ∧
      (∀ pre buf b payload post, xs = pre ++ .opened buf b payload :: post →
        .sealed t b payload buf ∈ pre) ∧
      (xs.filterMap Seen.sealedBuf).Nodup ∧ (xs.filterMap Seen.openedBuf).Nodup := by
  obtain ⟨xs, s, hrun, hi⟩ := inv_run enc (inv_new t) cs (by omega)
  rw [List.nil_append] at hi
  exact ⟨xs, s, hrun, hi.genuine, List.Nodup.of_map _ hi.distinct, List.Nodup.of_map _ hi.once⟩

/-- A stand-in cipher for runs on concrete inputs. -/
def xorCipher : Encrypt := fun nonce aad body =>
  some (body.map (· ^^^ 0x5a), List.replicate 12 0 ++ leBytes 4 (nonce ++ aad ++ body).length)

theorem xorCipher_inPlace : InPlace xorCipher tagLen := by
  intro nonce aad body cipher tag h
  cases h
  simp [tagLen]

/-- A datagram delivered twice, and once before it was sealed, opens once. -/
theorem opened_once_of_three :
    let d := (sealDatagram xorCipher .new 77 5 [1, 2]).out
    let cs := [.openBuf d, .sealInto 77 5 [1, 2] [9], .openBuf d, .openBuf d]
    ∃ xs s, run xorCipher 77 .new cs = .ok (xs, s) ∧ xs = [.dropped d, .sealed 77 5 [1, 2] d,
      .opened d 5 [1, 2], .dropped d] ∧ (xs.filterMap Seen.openedBuf).Nodup := by
  intro d cs
  obtain ⟨xs, s, hrun, -, -, honce⟩ := opened_was_sealed xorCipher 77 cs (by decide)
  have hxs : (run xorCipher 77 .new cs).map Prod.fst = .ok [.dropped d, .sealed 77 5 [1, 2] d,
      .opened d 5 [1, 2], .dropped d] := by decide +kernel
  rw [hrun] at hxs
  exact ⟨xs, s, hrun, by simpa [Except.map] using hxs, honce⟩

end SealedRun

end AtpExperiment
