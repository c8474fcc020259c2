/-
File → block layout (`blocks.rs`), shared by sender and receiver.

A `Layout` carries what `Layout::new` establishes. For a block in range no
arithmetic overflows (`range_of_lt`); the ranges are disjoint and cover the
file (`stop_le_start`, `exists_block`), so a file of the right length that
holds every block of `data` is `data` (`eq_of_holdsAt`).
-/
import AtpExperiment.Raptorq

namespace AtpExperiment

open Octets

/-- `div_ceil`. -/
def divCeil (a b : Nat) : Nat := a / b + if 0 < a % b then 1 else 0

theorem lt_divCeil {a b : Nat} (hb : 0 < b) (i : Nat) : i < divCeil a b ↔ i * b < a := by
  have hdm := Nat.div_add_mod a b
  have hr := Nat.mod_lt a hb
  have hlt : i < a / b + 1 ↔ i * b < b * (a / b) + b := by
    rw [← Nat.mul_succ, Nat.mul_comm b, Nat.mul_lt_mul_right hb]
  have hlt' : i < a / b ↔ i * b < b * (a / b) := by
    rw [Nat.mul_comm b, Nat.mul_lt_mul_right hb]
  unfold divCeil
  split
  · next hpos =>
    -- A short last block: block `a / b` starts inside the file.
    rcases Nat.lt_trichotomy i (a / b) with h | h | h
    · exact iff_of_true (by omega) (by have := hlt'.mp h; omega)
    · subst h
      exact iff_of_true (by omega) (by rw [Nat.mul_comm]; omega)
    · refine iff_of_false (by omega) (fun hlt'' => ?_)
      have := hlt.mpr (by omega)
      omega
  · rw [Nat.add_zero, hlt']
    omega

/-- `Layout`, with what `Layout::new` asserts and computes. -/
structure Layout where
  fileSize : UInt64
  blockSize : UInt32
  symbolSize : UInt16
  numBlocks : UInt32
  file_pos : 0 < fileSize.toNat
  block_pos : 0 < blockSize.toNat
  symbol_pos : 0 < symbolSize.toNat
  blocks_eq : numBlocks.toNat = divCeil fileSize.toNat blockSize.toNat
  deriving DecidableEq

/-- `std::ops::Range<u64>`. -/
structure Range where
  start : Nat
  stop : Nat
  deriving DecidableEq, Repr

namespace Layout

/-- `Layout::new`. -/
def new (fileSize : UInt64) (blockSize : UInt32) (symbolSize : UInt16) : Checked Layout :=
  if hf : 0 < fileSize.toNat then
    if hs : 0 < blockSize.toNat ∧ 0 < symbolSize.toNat then
      if hn : divCeil fileSize.toNat blockSize.toNat < 2 ^ 32 then
        .ok ⟨fileSize, blockSize, symbolSize,
          UInt32.ofNat (divCeil fileSize.toNat blockSize.toNat), hf, hs.1, hs.2,
          UInt32.toNat_ofNat_of_lt hn⟩
      else .error .assertion -- "block count fits u32"
    else .error .assertion
  else .error .assertion

/-- `Layout::range`; the debug assertion is on the index. -/
def range (l : Layout) (index : UInt32) : Checked Range :=
  if index < l.numBlocks then do
    let start ← Checked.mul 64 index.toNat l.blockSize.toNat
    let next ← Checked.add 64 start l.blockSize.toNat
    return ⟨start, min next l.fileSize.toNat⟩
  else .error .assertion

/-- `Layout::block_len`. -/
def blockLen (l : Layout) (index : UInt32) : Checked Nat := do
  let r ← l.range index
  Checked.sub r.stop r.start

/-- `Layout::source_symbols`, with its cast to `u32`. -/
def sourceSymbols (l : Layout) (index : UInt32) : Checked Nat := do
  let len ← l.blockLen index
  return divCeil len l.symbolSize.toNat % 2 ^ 32

/-- `Layout::oti`. -/
def oti (l : Layout) (rq : Raptorq) (index : UInt32) : Checked rq.Oti := do
  let len ← l.blockLen index
  rq.withDefaults len l.symbolSize

/-! ## Construction -/

theorem ext_sizes {l l' : Layout} (hf : l.fileSize = l'.fileSize) (hb : l.blockSize = l'.blockSize)
    (hs : l.symbolSize = l'.symbolSize) : l = l' := by
  have hn : l.numBlocks = l'.numBlocks := by
    apply UInt32.toNat.inj
    rw [l.blocks_eq, l'.blocks_eq, hf, hb]
  cases l
  cases l'
  simp only at hf hb hs hn
  subst hf hb hs hn
  rfl

theorem new_eq_ok {fileSize : UInt64} {blockSize : UInt32} {symbolSize : UInt16} {l : Layout}
    (h : new fileSize blockSize symbolSize = .ok l) :
    l.fileSize = fileSize ∧ l.blockSize = blockSize ∧ l.symbolSize = symbolSize := by
  unfold new at h
  split at h
  · split at h
    · split at h
      · cases h
        exact ⟨rfl, rfl, rfl⟩
      · cases h
    · cases h
  · cases h

/-- Both ends that start from the same sizes compute the same layout. -/
theorem new_self (l : Layout) : new l.fileSize l.blockSize l.symbolSize = .ok l := by
  have hn : divCeil l.fileSize.toNat l.blockSize.toNat < 2 ^ 32 := by
    rw [← l.blocks_eq]
    exact l.numBlocks.toNat_lt
  unfold new
  rw [dif_pos l.file_pos, dif_pos ⟨l.block_pos, l.symbol_pos⟩, dif_pos hn]
  exact congrArg _ (ext_sizes rfl rfl rfl)

/-! ## Ranges -/

/-- Where block `b` starts. -/
def start (l : Layout) (b : UInt32) : Nat := b.toNat * l.blockSize.toNat

/-- Where block `b` ends. -/
def stop (l : Layout) (b : UInt32) : Nat := min (l.start b + l.blockSize.toNat) l.fileSize.toNat

theorem stop_le (l : Layout) (b : UInt32) : l.stop b ≤ l.fileSize.toNat := Nat.min_le_right _ _

theorem start_lt_stop {l : Layout} {b : UInt32} (h : b < l.numBlocks) : l.start b < l.stop b := by
  rw [UInt32.lt_iff_toNat_lt, l.blocks_eq, lt_divCeil l.block_pos] at h
  have := l.block_pos
  simp only [stop, start]
  omega

theorem range_of_lt {l : Layout} {b : UInt32} (h : b < l.numBlocks) :
    l.range b = .ok ⟨l.start b, l.stop b⟩ := by
  have hb := b.toNat_lt
  have hs := l.blockSize.toNat_lt
  have hmul : b.toNat * l.blockSize.toNat ≤ (2 ^ 32 - 1) * (2 ^ 32 - 1) :=
    Nat.mul_le_mul (by omega) (by omega)
  rw [range, if_pos h, Checked.mul_of_lt (by omega), Checked.ok_bind,
    Checked.add_of_lt (by omega), Checked.ok_bind]
  rfl

theorem blockLen_of_lt {l : Layout} {b : UInt32} (h : b < l.numBlocks) :
    l.blockLen b = .ok (l.stop b - l.start b) := by
  have := start_lt_stop h
  rw [blockLen, range_of_lt h, Checked.ok_bind, Checked.sub_of_le (by simp only; omega)]

theorem oti_of_lt {l : Layout} {rq : Raptorq} {b : UInt32} (h : b < l.numBlocks) :
    l.oti rq b = rq.withDefaults (l.stop b - l.start b) l.symbolSize := by
  rw [oti, blockLen_of_lt h, Checked.ok_bind]

/-- A block ends before a later one starts. -/
theorem stop_le_start {l : Layout} {b c : UInt32} (h : b < c) : l.stop b ≤ l.start c := by
  have hle : (b.toNat + 1) * l.blockSize.toNat ≤ c.toNat * l.blockSize.toNat :=
    Nat.mul_le_mul_right _ (UInt32.lt_iff_toNat_lt.mp h)
  rw [Nat.add_mul, Nat.one_mul] at hle
  simp only [stop, start]
  omega

theorem disjoint {l : Layout} {b c : UInt32} (h : b ≠ c) :
    l.stop b ≤ l.start c ∨ l.stop c ≤ l.start b := by
  rcases UInt32.lt_or_lt_of_ne h with h | h
  · exact .inl (stop_le_start h)
  · exact .inr (stop_le_start h)

/-- Every byte of the file is in a block. -/
theorem exists_block {l : Layout} {i : Nat} (hi : i < l.fileSize.toNat) :
    ∃ b, b < l.numBlocks ∧ l.start b ≤ i ∧ i < l.stop b := by
  have hpos := l.block_pos
  have hdiv := Nat.div_add_mod i l.blockSize.toNat
  have hmod := Nat.mod_lt i hpos
  have hlt : i / l.blockSize.toNat < l.numBlocks.toNat := by
    rw [l.blocks_eq, lt_divCeil hpos, Nat.mul_comm]
    omega
  have hb : (UInt32.ofNat (i / l.blockSize.toNat)).toNat = i / l.blockSize.toNat :=
    UInt32.toNat_ofNat_of_lt (hlt.trans l.numBlocks.toNat_lt)
  refine ⟨UInt32.ofNat (i / l.blockSize.toNat), by rwa [UInt32.lt_iff_toNat_lt, hb], ?_⟩
  simp only [stop, start, hb]
  rw [Nat.mul_comm]
  omega

theorem numBlocks_pos (l : Layout) : 0 < l.numBlocks := by
  obtain ⟨b, hb, -⟩ := exists_block l.file_pos
  rw [UInt32.lt_iff_toNat_lt] at hb ⊢
  exact Nat.zero_lt_of_lt hb

/-! ## Block contents -/

/-- The bytes of block `b` of a file. -/
def block (l : Layout) (data : Octets) (b : UInt32) : Octets := slice data (l.start b) (l.stop b)

theorem length_block {l : Layout} {data : Octets} (hd : data.length = l.fileSize.toNat)
    (b : UInt32) : (l.block data b).length = l.stop b - l.start b := by
  have := l.stop_le b
  rw [block, length_slice, hd]
  omega

/-- A file of the right length that holds every block of `data` is `data`. -/
theorem eq_of_holdsAt {l : Layout} {data file : Octets} (hd : data.length = l.fileSize.toNat)
    (hf : file.length = l.fileSize.toNat)
    (h : ∀ b, b < l.numBlocks → HoldsAt file (l.start b) (l.block data b)) : file = data := by
  apply List.ext_getElem?
  intro i
  rcases Nat.lt_or_ge i l.fileSize.toNat with hi | hi
  · obtain ⟨b, hb, hlo, hhi⟩ := exists_block hi
    have hget := (h b hb).getElem? (i := i - l.start b) (by rw [length_block hd]; omega)
    rw [block, getElem?_slice, if_pos (by omega)] at hget
    rwa [show l.start b + (i - l.start b) = i by omega] at hget
  · rw [List.getElem?_eq_none (by omega), List.getElem?_eq_none (by omega)]

end Layout

end AtpExperiment
