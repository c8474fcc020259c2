/-
The encoder cache is transparent, and it is an LRU cache.

After any calls of `get_encoder` from an empty cache, the keys are those of the
blocks requested last, the latest first, and every entry is the encoder of its
key (`CacheOf`). A call therefore returns what building the encoder returns, hit
or miss, and in every run each turn of the spray loop makes the packets it
makes without a cache (`encoder_cache_lru`).
-/
import AtpExperiment.Lib.Recency
import AtpExperiment.SendFacts
import AtpExperiment.SourceBlocks

namespace AtpExperiment

open Octets Aead Duplex Recency

variable {rq : Raptorq} {enc : Encrypt} {cfg : SendCfg} {l : Layout} {data : Octets} {cap : Nat}
  {hist : List UInt32} {cache : List (UInt32 × rq.Encoder)} {b : UInt32}

/-- Calls of `get_encoder` one after the other: the encoders they return, and
the cache. -/
def getEncoders (cap : Nat) (l : Layout) (data : Octets) : List (UInt32 × rq.Encoder) →
    List UInt32 → Checked (List rq.Encoder × List (UInt32 × rq.Encoder))
  | cache, [] => return ([], cache)
  | cache, b :: bs => do
    let (enc, cache) ← getEncoder cache cap b l data
    let (encs, cache) ← getEncoders cap l data cache bs
    return (enc :: encs, cache)

/-- The cache after requests `hist`, the latest first. -/
structure CacheOf (l : Layout) (data : Octets) (cap : Nat) (hist : List UInt32)
    (cache : List (UInt32 × rq.Encoder)) : Prop where
  keys : cache.map Prod.fst = (recent hist).take cap
  built : ∀ x ∈ cache, buildEncoder l data x.1 = .ok x.2

theorem cacheOf_empty (l : Layout) (data : Octets) (cap : Nat) :
    CacheOf l data cap [] ([] : List (UInt32 × rq.Encoder)) where
  keys := by simp [recent]
  built x hx := by cases hx

/-! ## One call -/

theorem map_fst_eraseP (cache : List (UInt32 × rq.Encoder)) (b : UInt32) :
    (cache.eraseP (·.1 == b)).map Prod.fst = (cache.map Prod.fst).erase b := by
  induction cache with
  | nil => rfl
  | cons x cache ih =>
    by_cases hx : x.1 = b
    · simp [hx]
    · rw [List.eraseP_cons_of_neg (by simpa using hx), List.map_cons, ih, List.map_cons,
        List.erase_cons_tail (by simpa using hx)]

theorem CacheOf.hit (h : CacheOf l data cap hist cache) {x : UInt32 × rq.Encoder}
    (hfind : cache.find? (·.1 == b) = some x) :
    buildEncoder l data b = .ok x.2 ∧
      CacheOf l data cap (b :: hist) (x :: cache.eraseP (·.1 == b)) := by
  have hmem := List.mem_of_find?_eq_some hfind
  obtain rfl : x.1 = b := by simpa using List.find?_some hfind
  refine ⟨h.built x hmem, ?_, fun y hy => ?_⟩
  · -- Moving a key to the front makes no room necessary.
    have hkey : x.1 ∈ cache.map Prod.fst := List.mem_map_of_mem hmem
    have hlen : (x.1 :: (cache.map Prod.fst).erase x.1).length ≤ cap := by
      have hle : (cache.map Prod.fst).length ≤ cap := by
        rw [h.keys]
        exact List.length_take_le _ _
      have := List.length_pos_of_mem hkey
      rw [List.length_cons, List.length_erase_of_mem hkey]
      omega
    rw [List.map_cons, map_fst_eraseP, ← touch_take_recent, ← h.keys, touch,
      List.take_of_length_le hlen]
  · rcases List.mem_cons.mp hy with rfl | hy
    · exact h.built _ hmem
    · exact h.built y (List.mem_of_mem_eraseP hy)

theorem CacheOf.miss (h : CacheOf l data cap hist cache) {enc : rq.Encoder}
    (hfind : cache.find? (·.1 == b) = none) (hb : buildEncoder l data b = .ok enc) :
    CacheOf l data cap (b :: hist) (((b, enc) :: cache).take cap) where
  keys := by
    have hkey : b ∉ cache.map Prod.fst := by
      intro hmem
      obtain ⟨x, hx, he⟩ := List.mem_map.mp hmem
      exact List.find?_eq_none.mp hfind x hx (by simpa using he)
    rw [List.map_take, List.map_cons, ← touch_take_recent, ← h.keys, touch,
      List.erase_of_not_mem hkey]
  built x hx := by
    rcases List.mem_cons.mp (List.mem_of_mem_take hx) with rfl | hx
    · exact hb
    · exact h.built x hx

/-- A call returns the encoder of its block, and panics where building it does. -/
theorem CacheOf.call (h : CacheOf l data cap hist cache) (hcap : 0 < cap) (b : UInt32) :
    (∃ enc cache', getEncoder cache cap b l data = .ok (enc, cache') ∧
      buildEncoder l data b = .ok enc ∧ CacheOf l data cap (b :: hist) cache') ∨
    ∃ p, getEncoder cache cap b l data = .error p ∧
      (buildEncoder l data b : Checked rq.Encoder) = .error p := by
  rcases getEncoder_cases hcap b l data with
    ⟨x, hfind, hget⟩ | ⟨enc, hfind, hb, hget⟩ | ⟨p, hb, hget⟩
  · obtain ⟨hb, hc⟩ := h.hit hfind
    exact .inl ⟨x.2, _, hget, hb, hc⟩
  · exact .inl ⟨enc, _, hget, hb, h.miss hfind hb⟩
  · exact .inr ⟨p, hget, hb⟩

theorem CacheOf.of_getEncoder (h : CacheOf l data cap hist cache) (hcap : 0 < cap)
    {enc : rq.Encoder} {cache' : List (UInt32 × rq.Encoder)}
    (hget : getEncoder cache cap b l data = .ok (enc, cache')) :
    buildEncoder l data b = .ok enc ∧ CacheOf l data cap (b :: hist) cache' := by
  rcases h.call hcap b with ⟨enc₁, cache₁, hget₁, hb, hc⟩ | ⟨p, hget₁, -⟩
  · cases hget.symm.trans hget₁
    exact ⟨hb, hc⟩
  · cases hget.symm.trans hget₁

/-! ## Runs of calls -/

/-- Any calls: the encoders are those of a run without a cache. -/
theorem CacheOf.calls (h : CacheOf l data cap hist cache) (hcap : 0 < cap)
    (bs : List UInt32) :
    (getEncoders cap l data cache bs).map Prod.fst = bs.mapM (buildEncoder l data) ∧
    ∀ encs cache', getEncoders cap l data cache bs = .ok (encs, cache') →
      CacheOf l data cap (bs.reverse ++ hist) cache' := by
  induction bs generalizing hist cache with
  | nil =>
    refine ⟨rfl, fun encs cache' he => ?_⟩
    cases he
    exact h
  | cons b bs ih =>
    rw [List.mapM_cons]
    rcases h.call hcap b with ⟨enc, cache₁, hget, hb, h₁⟩ | ⟨p, hget, hb⟩
    · obtain ⟨hencs, hcache⟩ := ih h₁
      simp only [getEncoders, hget, hb, Checked.ok_bind, ← hencs]
      constructor
      · cases getEncoders cap l data cache₁ bs <;> rfl
      · intro encs cache' he
        simp only [Checked.bind_eq_ok, Checked.pure_eq_ok, Prod.mk.injEq] at he
        obtain ⟨⟨encs', cache''⟩, hrest, -, rfl⟩ := he
        have := hcache encs' cache'' hrest
        rwa [List.reverse_cons, List.append_assoc]
    · simp only [getEncoders, hget, hb]
      exact ⟨rfl, fun encs cache' he => by cases he⟩

theorem encoder_of_build (hd : data.length = l.fileSize.toNat) (hb : b < l.numBlocks)
    {enc : rq.Encoder} (h : buildEncoder l data b = .ok enc) :
    rq.encoderWithDefaults (slice data (l.start b) (l.stop b)) l.symbolSize = .ok enc := by
  rw [buildEncoder_of_lt hd hb, Checked.bind_eq_ok] at h
  obtain ⟨enc', henc, h⟩ := h
  split at h
  · cases h
  · cases h
    exact henc

/-! ## The spray loop -/

namespace Spray

/-- The locals without the cache. -/
def forget (v : Spray rq) : Spray rq := { v with encoders := [] }

/-- A turn with an encoder built for it. -/
def turnUncached (cfg : SendCfg) (v : Spray rq) (b : UInt32) :
    Checked (List EncodingPacket × Spray rq) := do
  let k ← cfg.layout.sourceSymbols b
  let enc ← buildEncoder cfg.layout cfg.data b
  match rq.blockEncoders enc, v.nextRepair[b.toNat]? with
  | blockEnc :: _, some next => do
    let n ← v.repairCount cfg k
    let repair ← rq.repairPackets blockEnc next.toNat n.toNat
    let next ← Checked.addU32 next n
    return ((if v.round = 0 then rq.sourcePackets blockEnc else []) ++ repair,
      { v with encoders := [], nextRepair := v.nextRepair.set b.toNat next })
  | _, _ => throw .outOfBounds

end Spray

/-- The cache apart, a turn does what it does without one. -/
theorem CacheOf.map_startTurn {v : Spray rq}
    (h : CacheOf cfg.layout cfg.data encoderCache hist v.encoders) (b : UInt32) :
    (v.startTurn cfg b).map (Prod.map id Spray.forget) = v.turnUncached cfg b := by
  unfold Spray.startTurn Spray.turnUncached
  cases cfg.layout.sourceSymbols b with
  | error p => rfl
  | ok k =>
  simp only [Checked.ok_bind]
  rcases h.call (by decide) b with ⟨enc, cache', hget, hb, -⟩ | ⟨p, hget, hb⟩
  · simp only [hget, hb, Checked.ok_bind]
    cases rq.blockEncoders enc with
    | nil => rfl
    | cons be bes =>
    cases v.nextRepair[b.toNat]? with
    | none => rfl
    | some next =>
    cases v.repairCount cfg k with
    | error p => rfl
    | ok n =>
    simp only [Checked.ok_bind]
    cases rq.repairPackets be next.toNat n.toNat with
    | error p => rfl
    | ok repair =>
    simp only [Checked.ok_bind]
    cases Checked.addU32 next n <;> rfl
  · rw [hget, hb]
    rfl

/-- The spray loop's cache is that of its turns. -/
def SendState.Cached (cfg : SendCfg) (s : SendState rq) : Prop :=
  CacheOf cfg.layout cfg.data encoderCache (s.turns.map (·.block)).reverse s.v.encoders

theorem SendStep.cached {s s' : SendState rq} {a : Act Frame} {e : Option Sealed}
    (h : SendStep enc cfg s a e s') (hc : s.Cached cfg) : s'.Cached cfg := by
  rcases h.turn_or with ⟨b, todo, pkts, -, -, hv, -, hturns⟩ | ⟨hturns, hencs, -⟩
  · obtain ⟨k, enc, be, bes, encoders, next, n, repair, next', -, hget, -, -, -, -, -, -, hv'⟩ :=
      Spray.startTurn_eq_ok hv
    rw [SendState.Cached, hturns, hv', List.map_append, List.reverse_append]
    exact (hc.of_getEncoder (by decide) hget).2
  · rw [SendState.Cached, hturns, hencs]
    exact hc

theorem cached_of_reachable {s : SendState rq}
    (h : Runs.Reachable (· = SendState.init rq cfg) (SendNext enc cfg) s) : s.Cached cfg := by
  refine h.invariant (SendState.Cached cfg) ?_ ?_
  · rintro s rfl
    exact cacheOf_empty _ _ _
  · rintro s s' hc ⟨a, e, hstep⟩
    exact hstep.cached hc

/-- Building returns exactly when the codec makes one source block. -/
theorem buildEncoder_ok_iff (hd : data.length = l.fileSize.toNat) (hb : b < l.numBlocks) :
    (∃ enc : rq.Encoder, buildEncoder l data b = .ok enc) ↔
      ∃ enc be, rq.encoderWithDefaults (slice data (l.start b) (l.stop b)) l.symbolSize = .ok enc ∧
        rq.blockEncoders enc = [be] := by
  constructor
  · rintro ⟨enc, h⟩
    have hone := h
    rw [buildEncoder_of_lt hd hb, Checked.bind_eq_ok] at hone
    obtain ⟨enc', henc, hone⟩ := hone
    split at hone
    · cases hone
    next hlen =>
    obtain ⟨be, hbe⟩ := List.length_eq_one_iff.mp (not_not.mp hlen)
    exact ⟨enc', be, henc, hbe⟩
  · rintro ⟨enc, be, henc, hbe⟩
    refine ⟨enc, ?_⟩
    rw [buildEncoder_of_lt hd hb, show rq.encoderWithDefaults (l.block data b) l.symbolSize = _
      from henc, Checked.ok_bind, if_neg (by simp [hbe])]
    rfl

/-- **The encoder cache is transparent, and holds the blocks requested last.**
For data of the layout's length, a capacity of at least one and any calls of
`get_encoder` for blocks of the layout, from an empty cache: the calls return
what building each encoder returns, that is, they return when the codec makes
one source block of each block; each encoder is that of its block's bytes; the
keys of the cache are distinct and each entry is the encoder of its key; there
are at most `cap` entries, one for each of the `cap` distinct blocks requested
last, the latest first. And at every point of every run of the spray loop a turn
does, the cache apart, what it does with no cache. -/
theorem encoder_cache_lru (rq : Raptorq) (l : Layout) (data : Octets)
    (hd : data.length = l.fileSize.toNat) (cap : Nat) (hcap : 1 ≤ cap) (bs : List UInt32)
    (hbs : ∀ b ∈ bs, b < l.numBlocks) :
    (getEncoders cap l data ([] : List (UInt32 × rq.Encoder)) bs).map Prod.fst =
      bs.mapM (buildEncoder l data) ∧
    ((∃ r, getEncoders cap l data ([] : List (UInt32 × rq.Encoder)) bs = .ok r) ↔
      ∀ b ∈ bs, ∃ enc be,
        rq.encoderWithDefaults (slice data (l.start b) (l.stop b)) l.symbolSize = .ok enc ∧
          rq.blockEncoders enc = [be]) ∧
    (∀ encs (cache : List (UInt32 × rq.Encoder)),
      getEncoders cap l data [] bs = .ok (encs, cache) →
        List.Forall₂ (fun b enc =>
          rq.encoderWithDefaults (slice data (l.start b) (l.stop b)) l.symbolSize = .ok enc)
          bs encs ∧
        (cache.map Prod.fst).Nodup ∧
        (∀ x ∈ cache,
          rq.encoderWithDefaults (slice data (l.start x.1) (l.stop x.1)) l.symbolSize = .ok x.2) ∧
        cache.length ≤ cap ∧ cache.length = min cap bs.dedup.length ∧
        cache.map Prod.fst = (recent bs.reverse).take cap) ∧
    ∀ (enc : Encrypt) (cfg : SendCfg) (s : SendState rq), cfg.layout = l → cfg.data = data →
      Runs.Reachable (· = SendState.init rq cfg) (SendNext enc cfg) s → ∀ b,
        (s.v.startTurn cfg b).map (Prod.map id Spray.forget) =
          (s.v.forget.startTurn cfg b).map (Prod.map id Spray.forget) := by
  have hempty : CacheOf l data cap [] ([] : List (UInt32 × rq.Encoder)) := cacheOf_empty l data cap
  obtain ⟨hencs, hcache⟩ := hempty.calls hcap bs
  refine ⟨hencs, ?_, fun encs cache hok => ?_, ?_⟩
  · rw [← forall₂_congr fun b hb => buildEncoder_ok_iff hd (hbs b hb), ← Checked.mapM_ok_iff,
      ← hencs]
    cases getEncoders cap l data ([] : List (UInt32 × rq.Encoder)) bs with
    | error p => simp [Except.map]
    | ok r => simp [Except.map]
  · have hc := hcache encs cache hok
    rw [List.append_nil] at hc
    have hlen : cache.length = min cap bs.dedup.length := by
      have hkeys := congrArg List.length hc.keys
      rwa [List.length_map, List.length_take, length_recent,
        (List.reverse_perm bs).dedup.length_eq] at hkeys
    refine ⟨?_, ?_, ?_, ?_, hlen, hc.keys⟩
    · rw [hok] at hencs
      exact Checked.forall₂_of_mapM hencs.symm fun b hb => encoder_of_build hd (hbs b hb)
    · rw [hc.keys]
      exact (nodup_recent _).sublist (List.take_sublist _ _)
    · intro x hx
      have hkey : x.1 ∈ bs := by
        have hmem : x.1 ∈ cache.map Prod.fst := List.mem_map_of_mem hx
        rw [hc.keys] at hmem
        exact List.mem_reverse.mp (mem_recent.mp (List.mem_of_mem_take hmem))
      exact encoder_of_build hd (hbs x.1 hkey) (hc.built x hx)
    · rw [hlen]
      exact Nat.min_le_left _ _
  · rintro enc cfg s rfl rfl hs b
    have hempty : CacheOf cfg.layout cfg.data encoderCache [] s.v.forget.encoders :=
      cacheOf_empty _ _ _
    exact ((cached_of_reachable hs).map_startTurn b).trans (hempty.map_startTurn b).symm

/-- Room for two of three blocks, requested in the order 0, 1, 0, 2: block 1 has
to go. -/
theorem encoder_cache_lru_two : ∃ data : Octets, data.length = 2500000 ∧
    ∃ encs, ∃ cache : List (UInt32 × Raptorq.repetition.Encoder),
      getEncoders 2 defaultLayout data [] [0, 1, 0, 2] = .ok (encs, cache) ∧
        cache.map Prod.fst = [2, 0] := by
  obtain ⟨data, hd⟩ : ∃ data : Octets, data.length = 2500000 :=
    ⟨List.replicate _ 0, List.length_replicate⟩
  have hbs : ∀ b ∈ [(0 : UInt32), 1, 0, 2], b < defaultLayout.numBlocks := by
    intro b hb
    simp only [List.mem_cons, List.not_mem_nil, or_false] at hb
    rcases hb with rfl | rfl | rfl | rfl <;> decide
  obtain ⟨-, hret, hcache, -⟩ :=
    encoder_cache_lru .repetition defaultLayout data hd 2 (by decide) _ hbs
  obtain ⟨⟨encs, cache⟩, hok⟩ := hret.mpr fun b _ => ⟨_, _, rfl, rfl⟩
  obtain ⟨-, -, -, -, -, hkeys⟩ := hcache encs cache hok
  exact ⟨data, hd, encs, cache, hok, hkeys.trans rfl⟩

end AtpExperiment
