/-
Repair symbols are fresh (`transfer`, `next_repair`).

A block's turns take consecutive ranges of repair ids: the history of a block is
`Sprayed`, whose index is the next id. Source symbols come in the turn of round
0 only, and a block has at most one turn a round, since a round's blocks are
distinct and the round number grows (`TurnInv`). What is put into datagrams is
part of what was generated, in order (`Puts`), so no encoding symbol id of a
block goes out twice (`repair_symbols_fresh`).

What is assumed of the codec is its numbering (`Raptorq.Numbered`): source
symbol `i` has id `i`, and repair symbol `r` of `K` source symbols has `K + r`.
-/
import AtpExperiment.EncoderCache
import AtpExperiment.LossEstimate
import AtpExperiment.Planes
import AtpExperiment.SendFeedback

namespace AtpExperiment

open Octets Aead Duplex

variable {rq : Raptorq} {enc : Encrypt} {cfg : SendCfg}

/-! ## The codec -/

/-- How the crate numbers the symbols of a source block. -/
structure Raptorq.Numbered (rq : Raptorq) : Prop where
  source (be : rq.BlockEncoder) :
    (rq.sourcePackets be).map (·.esi) = List.range (rq.sourcePackets be).length
  repair {be : rq.BlockEncoder} {start n : Nat} {ps : List EncodingPacket} :
    rq.repairPackets be start n = .ok ps →
      ps.map (·.esi) = List.range' ((rq.sourcePackets be).length + start) n

/-! ## The number of repair symbols of a turn -/

/-- The least number of repair symbols of a turn. -/
def leastRepair (round : UInt32) : Nat := if round = 0 then 2 else 8

/-- The greatest number of repair symbols of a turn, for a block of `k`
symbols: eight tenths of it, doubled from the fourth round on. -/
def mostRepair (k : Nat) : Nat := max 8 ⌈(16 / 10 : ℚ) * k⌉.toNat

theorem Spray.repairCount_bounds {v : Spray rq} {k : Nat} {n : UInt32}
    (h : v.repairCount cfg k = .ok n) : leastRepair v.round ≤ n.toNat ∧ n.toNat ≤ mostRepair k := by
  obtain ⟨m, hm, hfirst, hlater⟩ := v.repairCount_sized cfg k
  obtain rfl : m = n := Except.ok.inj (hm.symm.trans h)
  have hceil : ⌈(8 / 10 : ℚ) * k⌉.toNat ≤ ⌈(16 / 10 : ℚ) * k⌉.toNat := by
    refine Int.toNat_le_toNat (Int.ceil_le_ceil ?_)
    exact mul_le_mul_of_nonneg_right (by norm_num) (Nat.cast_nonneg k)
  unfold leastRepair mostRepair
  split
  · next hround =>
    have := hfirst hround
    omega
  · next hround => exact hlater hround

/-! ## The turns of a block -/

/-- The turns of a block of `k` symbols, from the first on, and its next repair
id: each turn takes the ids from there, the turn of round 0 after the source
symbols. -/
inductive Sprayed (be : rq.BlockEncoder) (k : Nat) : List Turn → Nat → Prop
  | nil : Sprayed be k [] 0
  | snoc {ts : List Turn} {t : Turn} {next n : Nat} {repair : List EncodingPacket}
      (h : Sprayed be k ts next) (hround : ∀ t' ∈ ts, t'.round < t.round)
      (hleast : leastRepair t.round ≤ n) (hmost : n ≤ mostRepair k)
      (hrep : rq.repairPackets be next n = .ok repair)
      (hpkts : t.packets = (if t.round = 0 then rq.sourcePackets be else []) ++ repair) :
    Sprayed be k (ts ++ [t]) (next + n)

namespace Sprayed

variable {be : rq.BlockEncoder} {k next : Nat} {ts : List Turn}

/-- The encoding symbol ids generated. -/
def ids (ts : List Turn) : List Nat := ts.flatMap fun t => t.packets.map (·.esi)

theorem ids_snoc (ts : List Turn) (t : Turn) :
    ids (ts ++ [t]) = ids ts ++ t.packets.map (·.esi) := by
  simp [ids]

theorem ids_turn (hrq : rq.Numbered) {t : Turn} {n : Nat} {repair : List EncodingPacket}
    (hrep : rq.repairPackets be next n = .ok repair)
    (hpkts : t.packets = (if t.round = 0 then rq.sourcePackets be else []) ++ repair) :
    t.packets.map (·.esi) = (if t.round = 0 then List.range (rq.sourcePackets be).length else []) ++
      List.range' ((rq.sourcePackets be).length + next) n := by
  rw [hpkts, List.map_append, hrq.repair hrep]
  split
  · rw [hrq.source]
  · rfl

/-- Every id so far is below the next one, and no id is there twice. -/
theorem ids_fresh (hrq : rq.Numbered) (h : Sprayed be k ts next) :
    (∀ i ∈ ids ts, i < (rq.sourcePackets be).length + next) ∧ (ids ts).Nodup := by
  induction h with
  | nil => exact ⟨by simp [ids], by simp [ids]⟩
  | @snoc ts t next n repair h hround _ _ hrep hpkts ih =>
    rw [ids_snoc, ids_turn hrq hrep hpkts]
    split
    · next hzero =>
      -- No round comes before round 0, so this is the first turn.
      obtain rfl : ts = [] := by
        refine List.eq_nil_iff_forall_not_mem.mpr fun t' ht' => ?_
        have := UInt32.lt_iff_toNat_lt.mp (hround t' ht')
        rw [hzero] at this
        exact absurd this (Nat.not_lt_zero _)
      have hnext : next = 0 := by
        generalize hts : ([] : List Turn) = ts' at h
        cases h with
        | nil => rfl
        | snoc => simp at hts
      subst hnext
      have hids : ids [] ++ (List.range (rq.sourcePackets be).length ++
          List.range' ((rq.sourcePackets be).length + 0) n) =
          List.range ((rq.sourcePackets be).length + n) := by
        rw [show ids [] = [] from rfl, List.nil_append, List.range_eq_range', List.range_eq_range',
          Nat.add_zero]
        simpa using @List.range'_append_1 0 (rq.sourcePackets be).length n
      rw [hids]
      exact ⟨fun i hi => by simpa using hi, List.nodup_range⟩
    · rw [List.nil_append]
      constructor
      · intro i hi
        rcases List.mem_append.mp hi with hi | hi
        · have := ih.1 i hi
          omega
        · have := List.mem_range'_1.mp hi
          omega
      · refine List.nodup_append'.mpr ⟨ih.2, List.nodup_range', fun i hi hi' => ?_⟩
        have := ih.1 i hi
        have := List.mem_range'_1.mp hi'
        omega

/-- One turn a round, so the ids grow with the rounds. -/
theorem next_le (h : Sprayed be k ts next) {r : Nat} (hr : ∀ t ∈ ts, t.round.toNat < r) :
    next ≤ mostRepair k * r := by
  induction h generalizing r with
  | nil => exact Nat.zero_le _
  | @snoc ts t next n repair h hround _ hmost _ _ ih =>
    have hprev := ih fun t' ht' => UInt32.lt_iff_toNat_lt.mp (hround t' ht')
    have hlast : t.round.toNat + 1 ≤ r := hr t (by simp)
    calc next + n ≤ mostRepair k * t.round.toNat + mostRepair k := by omega
      _ = mostRepair k * (t.round.toNat + 1) := (Nat.mul_succ _ _).symm
      _ ≤ mostRepair k * r := Nat.mul_le_mul_left _ hlast

end Sprayed

/-! ## One turn a round -/

/-- Between two rounds, or before the first. -/
def SendPc.idle : SendPc → Bool
  | .blocks _ | .packets .. | .flush .. | .flushTail _ | .drain (.turn _) | .roundEnd
  | .returned _ | .panicked => false
  | _ => true

/-- The blocks a round still has to come to are distinct and had no turn in it,
and no block had one in a round that has not begun. -/
structure TurnInv (s : SendState rq) : Prop where
  le : ∀ t ∈ s.turns, t.round ≤ s.v.round
  nodup : ∀ todo, s.pc.todo = some todo → todo.Nodup
  due : ∀ todo, s.pc.todo = some todo → ∀ t ∈ s.turns, t.block ∈ todo → t.round < s.v.round
  idle : s.pc.idle = true → ∀ t ∈ s.turns, t.round < s.v.round

theorem turnInv_init (cfg : SendCfg) : TurnInv (SendState.init rq cfg) where
  le t ht := by cases ht
  nodup todo h := by cases h
  due todo h := by cases h
  idle _ t ht := by cases ht

theorem Spray.nodup_pending (cfg : SendCfg) (v : Spray rq) : (v.pending cfg).Nodup := by
  refine (List.nodup_range.filter _).map_on fun a ha b hb he => ?_
  have hlt := cfg.layout.numBlocks.toNat_lt
  have ha' := List.mem_range.mp (List.mem_of_mem_filter ha)
  have hb' := List.mem_range.mp (List.mem_of_mem_filter hb)
  have he' := congrArg UInt32.toNat he
  rw [UInt32.toNat_ofNat', UInt32.toNat_ofNat'] at he'
  omega

theorem SendStep.mem_turns {s s' : SendState rq} {a : Act Frame} {e : Option Sealed}
    (h : SendStep enc cfg s a e s') {t : Turn} (ht : t ∈ s'.turns) : t ∈ s.turns ∨
      t.round = s.v.round ∧
        ∃ pkts todo, s.pc = .blocks (t.block :: todo) ∧ s'.pc = .packets t.block pkts todo := by
  rcases h.turn_or with ⟨b, todo, pkts, hpc, -, -, hpc', hturns⟩ | ⟨hturns, -⟩
  · rw [hturns, List.mem_append, List.mem_singleton] at ht
    rcases ht with ht | rfl
    · exact .inl ht
    · exact .inr ⟨rfl, pkts, todo, hpc, hpc'⟩
  · exact .inl (hturns ▸ ht)

theorem lt_of_addU32_one {r r' : UInt32} (h : Checked.addU32 r 1 = .ok r') : r < r' := by
  rw [UInt32.lt_iff_toNat_lt, Checked.addU32_eq_ok h]
  exact Nat.lt_succ_self _

theorem SendStep.round_le {s s' : SendState rq} {a : Act Frame} {e : Option Sealed}
    (h : SendStep enc cfg s a e s') : s.v.round ≤ s'.v.round := by
  rcases h.round with hr | ⟨-, hr⟩
  · rw [hr]
    exact UInt32.le_refl _
  · exact UInt32.le_of_lt (lt_of_addU32_one hr)

theorem SendStep.idle_from {s s' : SendState rq} {a : Act Frame} {e : Option Sealed}
    (h : SendStep enc cfg s a e s') (hi : s'.pc.idle = true) :
    s.pc.idle = true ∨ s.v.round < s'.v.round := by
  cases h with
  | roundEnd _ hr => exact .inr (lt_of_addU32_one hr)
  | readerRead | readerFail | readerReturn | drainGo => exact .inl hi
  | @drainEmpty k h =>
    cases k with
    | turn todo => cases hi
    | top | settle before => exact .inl (by rw [h]; rfl)
  | queued =>
    simp only at hi
    split at hi <;> cases hi
  | @packetsEnd _ todo =>
    rcases SendState.endTurn_cases s.v todo with he | ⟨-, he⟩ | he <;> rw [he] at hi <;> cases hi
  | flush _ _ gone | flushTail _ _ gone => cases gone <;> cases hi
  | hello h | helloAck h | manifest h | manifestAck h | openPush h | openPull h | selectAwait h
  | awaitOther h | settle h => exact .inl (by rw [h]; rfl)
  | _ => cases hi

theorem SendStep.turnInv {s s' : SendState rq} {a : Act Frame} {e : Option Sealed}
    (h : SendStep enc cfg s a e s') (hi : TurnInv s) : TurnInv s' where
  le t ht := by
    rcases h.mem_turns ht with hold | ⟨hr, -⟩
    · exact UInt32.le_trans (hi.le t hold) h.round_le
    · rw [hr]
      exact h.round_le
  nodup todo ht := by
    rcases h.todo_from ht with hpc | ⟨-, rfl⟩ | ⟨b, hpc, -⟩
    · exact hi.nodup todo hpc
    · exact Spray.nodup_pending cfg s.v
    · exact (List.nodup_cons.mp (hi.nodup (b :: todo) (by rw [hpc]; rfl))).2
  due todo ht t hmem hb := by
    rcases h.mem_turns hmem with hold | ⟨-, pkts, todo', hpc, hpc'⟩
    · have hlt : t.round < s.v.round := by
        rcases h.todo_from ht with hpc | ⟨hpc, -⟩ | ⟨b, hpc, -⟩
        · exact hi.due todo hpc t hold hb
        · exact hi.idle (by rw [hpc]; rfl) t hold
        · exact hi.due (b :: todo) (by rw [hpc]; rfl) t hold (List.mem_cons_of_mem b hb)
      exact UInt32.lt_of_lt_of_le hlt h.round_le
    · -- The block just served is not among those still to come.
      rw [hpc'] at ht
      cases ht
      exact absurd hb (List.nodup_cons.mp (hi.nodup _ (by rw [hpc]; rfl))).1
  idle hidle t hmem := by
    rcases h.mem_turns hmem with hold | ⟨-, pkts, todo, -, hpc'⟩
    · rcases h.idle_from hidle with hpc | hlt
      · exact UInt32.lt_of_lt_of_le (hi.idle hpc t hold) h.round_le
      · exact UInt32.lt_of_le_of_lt (hi.le t hold) hlt
    · rw [hpc'] at hidle
      cases hidle

/-! ## Runs -/

/-- The turns of block `b`. -/
def SendState.turnsOf (s : SendState rq) (b : UInt32) : List Turn :=
  s.turns.filter (·.block = b)

/-- Block `b` had no turn, or its turns took the repair ids up to `next`. -/
def SendState.Numbers (cfg : SendCfg) (s : SendState rq) (b : UInt32) (next : Nat) : Prop :=
  (s.turnsOf b = [] ∧ next = 0) ∨ ∃ k e be bes, cfg.layout.sourceSymbols b = .ok k ∧
    buildEncoder cfg.layout cfg.data b = .ok e ∧ rq.blockEncoders e = be :: bes ∧
    Sprayed be k (s.turnsOf b) next

/-- `next_repair` is the next repair id of every block. -/
structure RepairInv (cfg : SendCfg) (s : SendState rq) : Prop where
  size : s.v.nextRepair.length = cfg.layout.numBlocks.toNat
  next : ∀ b next, s.v.nextRepair[b.toNat]? = some next → s.Numbers cfg b next.toNat

theorem repairInv_init (rq : Raptorq) (cfg : SendCfg) : RepairInv cfg (SendState.init rq cfg) where
  size := List.length_replicate
  next b next h := by
    refine .inl ⟨rfl, ?_⟩
    rw [List.eq_of_mem_replicate (List.mem_of_getElem? h)]
    rfl

theorem Spray.startTurn_numbers {s s' : SendState rq} {b : UInt32} {todo : List UInt32}
    {pkts : List EncodingPacket} (hc : s.Cached cfg) (ht : TurnInv s) (hi : RepairInv cfg s)
    (hpc : s.pc = .blocks (b :: todo)) (hv : s.v.startTurn cfg b = .ok (pkts, s'.v))
    (hturns : s'.turns = s.turns ++ [⟨s.v.round, b, pkts⟩]) : RepairInv cfg s' := by
  obtain ⟨k, e, be, bes, encoders, next, n, repair, next', hk, hget, hbe, hnext, hn, hrep, hadd,
    hpkts, hv'⟩ := startTurn_eq_ok hv
  have hbuild := (hc.of_getEncoder (by decide) hget).1
  have hbounds := repairCount_bounds hn
  have hlt : b.toNat < s.v.nextRepair.length := (List.getElem?_eq_some_iff.mp hnext).1
  constructor
  · rw [hv', List.length_set]
    exact hi.size
  intro b' next₁ h₁
  rw [hv'] at h₁
  by_cases hb : b' = b
  · subst hb
    rw [List.getElem?_set_self hlt] at h₁
    cases h₁
    have hold : Sprayed be k (s.turnsOf b') next.toNat := by
      rcases hi.next b' next hnext with ⟨hnil, hz⟩ | ⟨k₁, e₁, be₁, bes₁, hk₁, hbuild₁, hbe₁, h⟩
      · rw [hnil, hz]
        exact .nil
      · cases hk.symm.trans hk₁
        cases hbuild.symm.trans hbuild₁
        cases hbe.symm.trans hbe₁
        exact h
    refine .inr ⟨k, e, be, bes, hk, hbuild, hbe, ?_⟩
    rw [Checked.addU32_eq_ok hadd, SendState.turnsOf, hturns, List.filter_append]
    simp only [List.filter_cons, decide_true, if_true, List.filter_nil]
    refine .snoc hold (fun t htb => ?_) hbounds.1 hbounds.2 hrep hpkts
    obtain ⟨hmem, hblock⟩ := List.mem_filter.mp htb
    exact ht.due _ (by rw [hpc]; rfl) t hmem (by simp [of_decide_eq_true hblock])
  · rw [List.getElem?_set_ne (fun he => hb (UInt32.toNat.inj he).symm)] at h₁
    have hsame : s'.turnsOf b' = s.turnsOf b' := by
      rw [SendState.turnsOf, hturns, List.filter_append]
      simp [SendState.turnsOf, Ne.symm hb]
    rw [SendState.Numbers, hsame]
    exact hi.next b' next₁ h₁

theorem SendStep.repairInv {s s' : SendState rq} {a : Act Frame} {e : Option Sealed}
    (h : SendStep enc cfg s a e s') (hc : s.Cached cfg) (ht : TurnInv s) (hi : RepairInv cfg s) :
    RepairInv cfg s' := by
  rcases h.turn_or with ⟨b, todo, pkts, hpc, -, hv, -, hturns⟩ | ⟨hturns, -, hnext⟩
  · exact Spray.startTurn_numbers hc ht hi hpc hv hturns
  · refine ⟨by rw [hnext, hi.size], fun b next hb => ?_⟩
    rw [hnext] at hb
    rw [SendState.Numbers, SendState.turnsOf, hturns]
    exact hi.next b next hb

/-- Every reachable state of the sender. -/
theorem repair_of_reachable {s : SendState rq}
    (h : Runs.Reachable (· = SendState.init rq cfg) (SendNext enc cfg) s) :
    TurnInv s ∧ RepairInv cfg s ∧ RoundInv cfg s := by
  refine h.invariant_of (fun s hs => cached_of_reachable hs)
    (fun s => TurnInv s ∧ RepairInv cfg s ∧ RoundInv cfg s) ?_ ?_
  · rintro s rfl
    exact ⟨turnInv_init cfg, repairInv_init rq cfg, roundInv_init cfg⟩
  · rintro s s' hc - ⟨ht, hi, hr⟩ ⟨a, e, hstep⟩
    exact ⟨hstep.turnInv ht, hstep.repairInv hc ht hi, hstep.roundInv hr⟩

/-! ## Datagrams -/

/-- The packet a step put into a datagram, with its block: the batch grew by a
segment. -/
def SendState.put (a : SendState rq × SendState rq) : List (UInt32 × EncodingPacket) :=
  match a.1.pc with
  | .packets b (p :: _) _ => if a.2.v.batchSegs = a.1.v.batchSegs + 1 then [(b, p)] else []
  | _ => []

/-- A run to `s`, and what it put into datagrams. -/
def Puts (enc : Encrypt) (cfg : SendCfg) : SendState rq → List (UInt32 × EncodingPacket) → Prop :=
  Runs.Emits (· = SendState.init rq cfg) SendState.put
    fun s a t => a = (s, t) ∧ SendNext enc cfg s t

theorem Puts.reachable {s : SendState rq} {out : List (UInt32 × EncodingPacket)}
    (h : Puts enc cfg s out) : Runs.Reachable (· = SendState.init rq cfg) (SendNext enc cfg) s := by
  induction h with
  | start h => exact .start h
  | next _ hst ih => exact ih.next hst.2

/-- The packets of a turn still to come. -/
def SendPc.rest : SendPc → List (UInt32 × EncodingPacket)
  | .packets b ps _ | .flush b ps _ => ps.map (b, ·)
  | _ => []

/-- The packets generated. -/
def SendState.made (s : SendState rq) : List (UInt32 × EncodingPacket) :=
  s.turns.flatMap fun t => t.packets.map (t.block, ·)

theorem SendState.put_sublist (s s' : SendState rq) : (put (s, s')).Sublist s.pc.rest := by
  simp only [put]
  split
  · next b p ps todo hpc =>
    rw [hpc]
    split
    · exact List.singleton_sublist.mpr List.mem_cons_self
    · exact List.nil_sublist _
  · exact List.nil_sublist _

/-- What a step did with the packets: it put the first one still to come into a
datagram, or left it out, or made new ones to come. -/
def SendState.Moved (s s' : SendState rq) : Prop :=
  ∃ new, s'.made = s.made ++ new ∧ (put (s, s') ++ s'.pc.rest).Sublist (s.pc.rest ++ new)

namespace SendState.Moved

variable {s s' : SendState rq}

theorem of_sublist (ht : s'.turns = s.turns)
    (h : (put (s, s') ++ s'.pc.rest).Sublist s.pc.rest) : s.Moved s' :=
  ⟨[], by simp [made, ht], by rwa [List.append_nil]⟩

theorem of_rest_nil (ht : s'.turns = s.turns) (hr : s'.pc.rest = []) : s.Moved s' :=
  of_sublist ht (by rw [hr, List.append_nil]; exact put_sublist s s')

theorem of_same (ht : s'.turns = s.turns) (hv : s'.v.batchSegs = s.v.batchSegs)
    (hpc : s'.pc = s.pc) : s.Moved s' := by
  refine of_sublist ht ?_
  have hnil : put (s, s') = [] := by
    simp only [put, hv]
    split
    · exact if_neg (by omega)
    · rfl
  rw [hnil, List.nil_append, hpc]

theorem of_packet {b : UInt32} {p : EncodingPacket} {ps : List EncodingPacket}
    {todo : List UInt32} (ht : s'.turns = s.turns) (h : s.pc = .packets b (p :: ps) todo)
    (hr : s'.pc.rest = ps.map (b, ·)) : s.Moved s' := by
  refine of_sublist ht ?_
  rw [hr, h]
  simp only [put, h, SendPc.rest, List.map_cons]
  split
  · exact List.Sublist.refl _
  · exact List.sublist_cons_self _ _

end SendState.Moved

theorem SendStep.moved {s s' : SendState rq} {a : Act Frame} {e : Option Sealed}
    (h : SendStep enc cfg s a e s') : s.Moved s' := by
  cases h with
  | readerRead | readerFail | readerReturn => exact .of_same rfl rfl rfl
  | @turn b todo pkts v h =>
    refine ⟨pkts.map (b, ·), by simp [SendState.made], ?_⟩
    simp [SendState.put, SendPc.rest, h]
  | dropped h => exact .of_packet rfl h rfl
  | queued h =>
    refine .of_packet rfl h ?_
    simp only
    split <;> rfl
  | flush h now gone =>
    refine .of_sublist rfl ?_
    cases gone <;> simp [SendState.put, SendPc.rest, h]
  | drainGo h => exact .of_rest_nil rfl (by simp only [h]; rfl)
  | @drainEmpty k h =>
    refine .of_rest_nil rfl ?_
    rcases SendState.resume_cases cfg s.v k with he | ⟨_, -, he⟩ | he | he <;> rw [he] <;> rfl
  | @packetsEnd _ todo =>
    refine .of_rest_nil rfl ?_
    rcases SendState.endTurn_cases s.v todo with he | ⟨-, he⟩ | he <;> rw [he] <;> rfl
  | flushTail _ _ gone => cases gone <;> exact .of_rest_nil rfl rfl
  | @hello ok | @manifest _ ok => cases ok <;> exact .of_rest_nil rfl rfl
  | _ => exact .of_rest_nil rfl rfl

/-- What was put into datagrams is part of what was generated, in order. -/
theorem Puts.sublist {s : SendState rq} {out : List (UInt32 × EncodingPacket)}
    (h : Puts enc cfg s out) : (out ++ s.pc.rest).Sublist s.made := by
  induction h with
  | start h =>
    subst h
    exact List.Sublist.refl _
  | @next s t a out _ hst ih =>
    obtain ⟨rfl, act, e, hstep⟩ := hst
    obtain ⟨new, hmade, hsub⟩ := hstep.moved
    have hnew : ((out ++ SendState.put (s, t)) ++ t.pc.rest).Sublist
        ((out ++ s.pc.rest) ++ new) := by
      rw [List.append_assoc, List.append_assoc]
      exact hsub.append_left out
    rw [hmade]
    exact hnew.trans (ih.append_right new)

theorem SendState.filter_made (s : SendState rq) (b : UInt32) :
    (s.made.filter (·.1 = b)).map Prod.snd = (s.turnsOf b).flatMap (·.packets) := by
  unfold made turnsOf
  induction s.turns with
  | nil => rfl
  | cons t ts ih =>
    rw [List.flatMap_cons, List.filter_append, List.map_append, ih]
    by_cases hb : t.block = b
    · rw [List.filter_cons_of_pos (by simpa using hb), List.flatMap_cons, List.filter_eq_self.mpr]
      · rw [List.map_map]
        simp [Function.comp_def]
      · simp [hb]
    · rw [List.filter_cons_of_neg (by simpa using hb), List.filter_eq_nil_iff.mpr]
      · rfl
      · simp [hb]

theorem Puts.sublist_turnsOf {s : SendState rq} {out : List (UInt32 × EncodingPacket)}
    (h : Puts enc cfg s out) (b : UInt32) :
    ((out.filter (·.1 = b)).map Prod.snd).Sublist ((s.turnsOf b).flatMap (·.packets)) := by
  rw [← s.filter_made b]
  exact (((List.sublist_append_left out _).trans h.sublist).filter _).map _

theorem SendState.Numbers.nodup {s : SendState rq} {b : UInt32} {next : Nat} (hrq : rq.Numbered)
    (h : s.Numbers cfg b next) : (((s.turnsOf b).flatMap (·.packets)).map (·.esi)).Nodup := by
  rw [List.map_flatMap]
  rcases h with ⟨hnil, -⟩ | ⟨k, e, be, bes, -, -, -, h⟩
  · rw [hnil]
    exact List.nodup_nil
  · exact (h.ids_fresh hrq).2

theorem RepairInv.numbers {s : SendState rq} (h : RepairInv cfg s) {b : UInt32}
    (hb : b < cfg.layout.numBlocks) :
    ∃ next, s.v.nextRepair[b.toNat]? = some next ∧ s.Numbers cfg b next.toNat := by
  have hlt : b.toNat < s.v.nextRepair.length := by
    rw [h.size]
    exact UInt32.lt_iff_toNat_lt.mp hb
  exact ⟨_, List.getElem?_eq_getElem hlt, h.next b _ (List.getElem?_eq_getElem hlt)⟩

/-- An unacked block whose turn comes is served, unless making its packets
panics. -/
theorem SendStep.served {s s' : SendState rq} {a : Act Frame} {e : Option Sealed}
    (h : SendStep enc cfg s a e s') {b : UInt32} {todo : List UInt32}
    (hpc : s.pc = .blocks (b :: todo)) (ha : s.v.acked[b.toNat]? ≠ some true) :
    s'.pc = s.pc ∨ s'.pc = .panicked ∨ s'.Turned b := by
  cases h with
  | readerRead | readerFail | readerReturn => exact .inl rfl
  | turnPanic => exact .inr (.inl rfl)
  | turn h _ hv =>
    cases hpc.symm.trans h
    exact .inr (.inr (SendState.turned_of_startTurn hv rfl))
  | skip h hack =>
    cases hpc.symm.trans h
    exact absurd hack ha
  | readFail h | callFail h | flushPanic h =>
    rw [hpc] at h
    cases h
  | hello h | helloAck h | helloAckOther h | manifest h | manifestAck h | manifestAckOther h
  | openPush h | openPushNone h | openPull h | openPullTimeout h | drainGo h | drainDone h
  | drainErr h | drainPanic h | drainEmpty h | drainClosed h | selectAwait h | selectBlocks h
  | awaitDone h | awaitOther h | awaitFail h | blocksEnd h | dropped h | queued h | encodeFail h
  | packetPanic h | packetsEnd h | flush h | flushTail h | roundEnd h | roundPanic h | settle h =>
    cases hpc.symm.trans h

/-- **Repair symbols are fresh.** In every run, for every block: the encoding
symbol ids put into datagrams are distinct; the packets in them are those of the
block's turns, in order; and the turns take consecutive ranges of repair ids from
0 to `next_repair`, at least two ids in round 0 and eight later, with the source
symbols in the turn of round 0 only (`Sprayed`). A block unacked when its turn
comes is served, and at the end of a round with the receiver still there every
block was served in it or is acked. -/
theorem repair_symbols_fresh (rq : Raptorq) (hrq : rq.Numbered) (enc : Encrypt) (cfg : SendCfg)
    {s : SendState rq} {out : List (UInt32 × EncodingPacket)} (h : Puts enc cfg s out) :
    (∀ b, b < cfg.layout.numBlocks →
      ((out.filter (·.1 = b)).map (·.2.esi)).Nodup ∧
      ((out.filter (·.1 = b)).map Prod.snd).Sublist ((s.turnsOf b).flatMap (·.packets)) ∧
      ∃ next, s.v.nextRepair[b.toNat]? = some next ∧ s.Numbers cfg b next.toNat) ∧
    (∀ b todo, s.pc = .blocks (b :: todo) → s.v.acked[b.toNat]? ≠ some true →
      ∀ s', SendNext enc cfg s s' → s'.pc = s.pc ∨ s'.pc = .panicked ∨ s'.Turned b) ∧
    (s.pc = .roundEnd → s.v.receiverGone = true ∨
      ∀ b, b < cfg.layout.numBlocks → s.Turned b ∨ s.v.acked[b.toNat]? = some true) := by
  obtain ⟨-, hi, hround⟩ := repair_of_reachable h.reachable
  refine ⟨fun b hb => ?_, ?_, fun hpc => ?_⟩
  · obtain ⟨next, hnext, hnum⟩ := hi.numbers hb
    refine ⟨?_, h.sublist_turnsOf b, next, hnext, hnum⟩
    have hsub := (h.sublist_turnsOf b).map (·.esi)
    rw [List.map_map] at hsub
    exact (hnum.nodup hrq).sublist hsub
  · rintro b todo hpc ha s' ⟨a, e, hstep⟩
    exact hstep.served hpc ha
  · refine (hround.ended hpc).imp_right fun hcov b hb => ?_
    rcases hcov b hb with hmem | hrest
    · cases hmem
    · exact hrest

/-- A stand-in codec with the crate's numbering: the block is the one source
symbol and every repair symbol, and an id of 2^24 is refused. Nothing is
decoded. -/
def Raptorq.counted : Raptorq where
  Oti := Unit
  Encoder := Octets
  BlockEncoder := Octets
  Decoder := Unit
  withDefaults _ _ := .ok ()
  symbolSize _ := 0
  encoderWithDefaults block _ := .ok block
  blockEncoders e := [e]
  sourcePackets be := [⟨0, 0, be, Nat.two_pow_pos 24⟩]
  repairPackets be start n :=
    if h : 1 + start + n ≤ 2 ^ 24 then
      .ok <| (List.finRange n).map fun i : Fin n => ⟨0, 1 + start + i, be, by omega⟩
    else .error .assertion
  newDecoder _ := .ok ()
  decode _ _ := .ok (none, ())

theorem Raptorq.counted_repairPackets {be : Octets} {start n : Nat} (h : 1 + start + n ≤ 2 ^ 24) :
    ∃ ps, counted.repairPackets be start n = .ok ps ∧ ps.length = n :=
  ⟨_, dif_pos h, by simp⟩

theorem Raptorq.numbered_counted : counted.Numbered where
  source _ := rfl
  repair {be start n ps} h := by
    simp only [counted] at h
    split at h
    · cases h
      rw [List.map_map, List.range'_eq_map_range, ← List.map_coe_finRange_eq_range, List.map_map]
      rfl
    · cases h

/-- The tiny file as one symbol, in plaintext. -/
def cfg128 : SendCfg :=
  { tinyCfg .plain "" 200 with
    layout := { (tinyCfg .plain "" 200).layout with
      symbolSize := 128
      symbol_pos := Nat.zero_lt_succ 127 } }

theorem exists_puts {s : SendState rq}
    (h : Runs.Reachable (· = SendState.init rq cfg) (SendNext enc cfg) s) :
    ∃ out, Puts enc cfg s out := by
  refine h.invariant (fun s => ∃ out, Puts enc cfg s out) ?_ ?_
  · rintro s rfl
    exact ⟨[], .start rfl⟩
  · rintro s s' ⟨out, ho⟩ hst
    exact ⟨_, Runs.Emits.next ho ⟨rfl, hst⟩⟩

theorem Spray.sendPacket_plain (enc : Encrypt) {v : Spray rq} (hplane : v.plane = .plain)
    (hdrop : cfg.testDrop = 0) (hsent : v.packetsSent.toNat + 1 < 2 ^ 64)
    (hbytes : v.bytesSent.toNat + cfg.seg < 2 ^ 64) (b : UInt32) (p : EncodingPacket) :
    ∃ batch sent bytes, v.sendPacket enc cfg b p = .ok (.queued { v with
        batch, batchSegs := v.batchSegs + 1, packetsSent := sent, bytesSent := bytes } none) ∧
      batch.length = v.batch.length + Datagram.headerLen + (4 + p.data.length) ∧
      sent.toNat = v.packetsSent.toNat + 1 ∧ bytes.toNat = v.bytesSent.toNat + cfg.seg := by
  have hseg : (UInt64.ofNat cfg.seg).toNat = cfg.seg := UInt64.toNat_ofNat_of_lt' (by
    have : UInt64.size = 2 ^ 64 := rfl
    omega)
  have hs : Checked.addU64 v.packetsSent 1 = .ok (v.packetsSent + 1) := Checked.addU64_of_lt hsent
  have hb : Checked.addU64 v.bytesSent (UInt64.ofNat cfg.seg) = _ :=
    Checked.addU64_of_lt (by rw [hseg]; exact hbytes)
  refine ⟨Datagram.encodeInto cfg.transferTag b (p.payloadId ++ p.data) v.batch, _, _, ?_, ?_,
    Checked.addU64_eq_ok hs, (Checked.addU64_eq_ok hb).trans (by rw [hseg])⟩
  · simp only [sendPacket, hs, Checked.ok_bind, hdrop, lt_irrefl, false_and, if_false, encodePacket,
      hplane, TxPlane.encodeInto, if_true, hb]
    rfl
  · rw [Datagram.encodeInto_eq, List.length_append, Datagram.length_encode, p.length_payload,
      Nat.add_assoc]

theorem Puts.packets (hdrop : cfg.testDrop = 0) {b : UInt32} {ps : List EncodingPacket}
    {todo : List UInt32} {v : Spray rq} {reader : Reader} {chan : List Feedback}
    {turns : List Turn} {out : List (UInt32 × EncodingPacket)} (hplane : v.plane = .plain)
    (hroom : v.batchSegs + ps.length < cfg.maxSegs)
    (hsent : v.packetsSent.toNat + ps.length < 2 ^ 64)
    (hbytes : v.bytesSent.toNat + cfg.seg * ps.length < 2 ^ 64)
    (hdata : ∀ p ∈ ps, Datagram.headerLen + (4 + p.data.length) = cfg.seg)
    (h : Puts enc cfg ⟨.packets b ps todo, v, reader, chan, turns⟩ out) :
    ∃ batch sent bytes, Puts enc cfg ⟨.packets b [] todo, { v with
        batch, batchSegs := v.batchSegs + ps.length, packetsSent := sent, bytesSent := bytes },
        reader, chan, turns⟩ (out ++ ps.map (b, ·)) ∧
      batch.length = v.batch.length + cfg.seg * ps.length ∧
      sent.toNat = v.packetsSent.toNat + ps.length ∧
      bytes.toNat = v.bytesSent.toNat + cfg.seg * ps.length := by
  induction ps generalizing v out with
  | nil => exact ⟨v.batch, v.packetsSent, v.bytesSent, by simpa using h, rfl, rfl, rfl⟩
  | cons p ps ih =>
    rw [List.length_cons] at hroom hsent hbytes
    rw [Nat.mul_succ] at hbytes
    obtain ⟨batch, sent, bytes, hv, hl, hs, hb⟩ :=
      Spray.sendPacket_plain enc hplane hdrop (by omega) (by omega) b p
    have hstep := Runs.Emits.next h ⟨rfl, _, _, .queued rfl hv⟩
    simp only [SendState.put, if_true] at hstep
    rw [if_neg (by omega)] at hstep
    obtain ⟨batch', sent', bytes', h', hl', hs', hb'⟩ := ih (by exact hplane)
      (by simp only; omega) (by simp only; omega) (by simp only; omega)
      (fun q hq => hdata q (List.mem_cons_of_mem p hq)) hstep
    have hp := hdata p List.mem_cons_self
    refine ⟨batch', sent', bytes', ?_, ?_, ?_, ?_⟩
    · simpa [Nat.add_assoc, Nat.add_comm 1] using h'
    · simp only [List.length_cons, Nat.mul_succ] at hl' ⊢
      omega
    · simp only [List.length_cons] at hs' ⊢
      omega
    · simp only [List.length_cons, Nat.mul_succ] at hb' ⊢
      omega

theorem quiet_repairCount {v : Spray rq} (hloss : v.loss = .new) :
    v.repairCount cfg128 1 = .ok (if v.round = 0 then 2 else 8) := by
  split
  · next hround => exact Spray.repairCount_first rfl hloss hround (by decide)
  · next hround =>
    have hbase : LossEstimator.new.repairFrac = .ok (1 / 20) := by
      norm_num [LossEstimator.repairFrac, LossEstimator.new, clamp]
    simp only [Spray.repairCount, if_neg hround, hloss, hbase, Checked.ok_bind]
    -- At most a tenth of one symbol, whatever the round.
    have hmin : ((min v.round.toNat 4 : Nat) : ℚ) ≤ 4 := by exact_mod_cast Nat.min_le_right _ _
    have hle :
        ⌈((1 : Nat) : ℚ) * (1 / 20 * (1 + 25 / 100 * ((min v.round.toNat 4 : Nat) : ℚ)))⌉ ≤ 1 :=
      Int.ceil_le.mpr (by push_cast at hmin ⊢; linarith)
    rw [if_pos]
    · rfl
    · rw [UInt32.lt_iff_toNat_lt]
      refine lt_of_le_of_lt (toNat_ceilU32_le _) ?_
      have : (8 : UInt32).toNat = 8 := rfl
      omega

set_option maxRecDepth 4000 in
/-- The first turn of the tiny file: its symbol and two repair symbols. -/
theorem repair_symbols_fresh_tiny :
    Raptorq.counted.Numbered ∧ ∃ (s : SendState .counted) (out : List (UInt32 × EncodingPacket)),
      Puts (fun _ _ _ => none) cfg128 s out ∧ out.map (·.2.esi) = [0, 1, 2] ∧
      ((out.filter (·.1 = 0)).map (·.2.esi)).Nodup ∧
      ∃ next, s.v.nextRepair[0]? = some next ∧ s.Numbers cfg128 0 next.toNat := by
  obtain ⟨out, h₀⟩ := exists_puts (spraying_reachable .counted (fun _ _ _ => none) cfg128)
  obtain rfl : out = [] := by simpa [SendState.made, SendState.init, SendPc.rest] using h₀.sublist
  have hk : cfg128.layout.sourceSymbols 0 = .ok 1 := rfl
  have hcount : (Spray.new .counted cfg128).repairCount cfg128 1 = .ok 2 := quiet_repairCount rfl
  have hturn : ∃ p₀ p₁ p₂ v,
      (Spray.new .counted cfg128).startTurn cfg128 0 = .ok ([p₀, p₁, p₂], v) ∧
      [p₀, p₁, p₂].map EncodingPacket.esi = [0, 1, 2] ∧
      ∀ p ∈ [p₀, p₁, p₂], p.data = tinyData := by
    simp only [Spray.startTurn, hk, Checked.ok_bind, hcount]
    exact ⟨_, _, _, _, rfl, rfl, by simp; rfl⟩
  obtain ⟨p₀, p₁, p₂, v, hturn, hids, hdata⟩ := hturn
  obtain ⟨_, _, hv⟩ := Spray.startTurn_frame hturn
  have h₁ := Runs.Emits.next h₀ ⟨rfl, _, _, .drainEmpty rfl rfl (by simp)⟩
  have h₂ := Runs.Emits.next h₁ ⟨rfl, _, _, .selectBlocks rfl (by simp; exact ⟨by decide, rfl⟩)⟩
  have h₃ := Runs.Emits.next h₂ ⟨rfl, _, _, .turn rfl (by decide) hturn⟩
  have hsegs : v.batchSegs + [p₀, p₁, p₂].length = 3 := by rw [hv]; rfl
  have hsent : v.packetsSent.toNat + [p₀, p₁, p₂].length = 3 := by rw [hv]; rfl
  have hbytes : v.bytesSent.toNat + cfg128.seg * [p₀, p₁, p₂].length = 444 := by rw [hv]; rfl
  obtain ⟨batch, sent, bytes, h, -⟩ := Puts.packets rfl (by rw [hv]; rfl)
    (by rw [hsegs]; decide) (by rw [hsent]; decide) (by rw [hbytes]; decide)
    (fun p hp => by rw [hdata p hp]; rfl) h₃
  have hfresh := (repair_symbols_fresh .counted Raptorq.numbered_counted _ cfg128 h).1 0 (by decide)
  refine ⟨Raptorq.numbered_counted, _, _, h, ?_, hfresh.1, hfresh.2.2⟩
  simpa [SendState.put, SendState.resume] using hids

end AtpExperiment
