/-
One source block per block (`get_encoder`).

The spray loop uses the first source block of a block's encoder only, so it
sends all of the block only if there is no second one. The codec takes at most
`kMax` symbols to a source block, and neither `Layout::new` nor the manifest
check relates the block size to the symbol size: the debug assertion holds for
every block exactly when the longest one has at most `kMax` symbols
(`single_source_block_iff`).
-/
import AtpExperiment.Feedback

namespace AtpExperiment

open Octets

variable {rq : Raptorq} {l : Layout} {data : Octets}

theorem Layout.blocks_le_iff {n : Nat} :
    (∀ b, b < l.numBlocks → l.stop b - l.start b ≤ n) ↔
      min l.blockSize.toNat l.fileSize.toNat ≤ n := by
  constructor
  · intro h
    have hpos : (0 : UInt32) < l.numBlocks := by
      rw [UInt32.lt_iff_toNat_lt, l.blocks_eq, lt_divCeil l.block_pos]
      simpa using l.file_pos
    simpa [stop, start] using h 0 hpos
  · intro h b _
    simp only [stop]
    omega

/-- `get_encoder` builds the encoder of a block in range unless its debug
assertion fails. -/
theorem buildEncoder_of_lt (hd : data.length = l.fileSize.toNat) {b : UInt32}
    (hb : b < l.numBlocks) : (buildEncoder l data b : Checked rq.Encoder) = do
      let enc ← rq.encoderWithDefaults (l.block data b) l.symbolSize
      if (rq.blockEncoders enc).length ≠ 1 then throw .assertion
      return enc := by
  have hle := l.stop_le b
  simp only [buildEncoder, Layout.range_of_lt hb, Checked.ok_bind]
  rw [if_neg (by omega)]
  rfl

theorem buildEncoder_single (hrq : rq.Partition) (hd : data.length = l.fileSize.toNat)
    {b : UInt32} (hb : b < l.numBlocks)
    (hle : l.stop b - l.start b ≤ Raptorq.kMax * Raptorq.aligned l.symbolSize) :
    ∃ e be, buildEncoder l data b = .ok e ∧ rq.blockEncoders e = [be] ∧
      l.block data b <+: rq.sourceBytes be := by
  have hlen := Layout.length_block hd b
  have hne : l.block data b ≠ [] :=
    List.ne_nil_of_length_pos (by have := Layout.start_lt_stop hb; omega)
  obtain ⟨e, he, hone⟩ := hrq.single hne (by rwa [hlen])
  obtain ⟨be, hbe⟩ := List.length_eq_one_iff.mp hone
  refine ⟨e, be, ?_, hbe, ?_⟩
  · rw [buildEncoder_of_lt hd hb, he, Checked.ok_bind, if_neg (by rw [hone]; decide)]
    rfl
  · simpa [hbe] using hrq.covers he

/-- The debug assertion fails on the encoder of a block of more than `kMax`
symbols. -/
theorem buildEncoder_several (hrq : rq.Partition) (hd : data.length = l.fileSize.toNat)
    {b : UInt32} (hb : b < l.numBlocks)
    (hlt : Raptorq.kMax * Raptorq.aligned l.symbolSize < l.stop b - l.start b) {e : rq.Encoder}
    (he : rq.encoderWithDefaults (l.block data b) l.symbolSize = .ok e) :
    (buildEncoder l data b : Checked rq.Encoder) = .error .assertion := by
  have hmany := hrq.several (by rwa [Layout.length_block hd]) he
  rw [buildEncoder_of_lt hd hb, he, Checked.ok_bind, if_pos (by omega)]
  rfl

/-- **Every block of a layout is one source block, and the source block the
loop sprays holds all of it, exactly when the longest block has at most `kMax`
symbols.** -/
theorem single_source_block_iff (rq : Raptorq) (hrq : rq.Partition) (l : Layout) (data : Octets)
    (hd : data.length = l.fileSize.toNat) :
    (∀ b, b < l.numBlocks → ∃ e be, buildEncoder l data b = .ok e ∧ rq.blockEncoders e = [be] ∧
      l.block data b <+: rq.sourceBytes be) ↔
    min l.blockSize.toNat l.fileSize.toNat ≤ Raptorq.kMax * Raptorq.aligned l.symbolSize := by
  rw [← Layout.blocks_le_iff]
  constructor
  · intro h b hb
    obtain ⟨e, be, he, -⟩ := h b hb
    obtain ⟨e', he', -⟩ := Checked.bind_eq_ok.mp (buildEncoder_of_lt hd hb ▸ he)
    by_contra hlt
    rw [buildEncoder_several hrq hd hb (by omega) he'] at he
    cases he
  · intro h b hb
    exact buildEncoder_single hrq hd hb (h b hb)

/-- A file of 2500000 bytes with the default sizes. -/
def defaultLayout : Layout :=
  ⟨2500000, 1048576, 1200, 3, by decide, by decide, by decide, by decide⟩

/-- With the default sizes every block is one source block of 874 symbols. -/
theorem single_source_block_default : ∃ data : Octets, data.length = 2500000 ∧
    ∀ b, b < defaultLayout.numBlocks → ∃ e be,
      buildEncoder defaultLayout data b = .ok e ∧ Raptorq.sliced.blockEncoders e = [be] ∧
        defaultLayout.block data b <+: Raptorq.sliced.sourceBytes be := by
  obtain ⟨data, hd⟩ : ∃ data : Octets, data.length = 2500000 :=
    ⟨List.replicate _ 0, List.length_replicate⟩
  exact ⟨data, hd, (single_source_block_iff .sliced Raptorq.partition_sliced defaultLayout data
    hd).mpr (by decide)⟩

/-- With `--block-size 4194304 --symbol-size 64` a block of 4 MiB has 65536 symbols in
several source blocks, and the debug assertion fails. -/
theorem several_source_blocks_symbol_size_64 :
    ∃ l, Layout.new 4194304 4194304 64 = .ok l ∧ ∃ data : Octets, data.length = 4194304 ∧
      (buildEncoder l data 0 : Checked Raptorq.sliced.Encoder) = .error .assertion := by
  obtain ⟨data, hd⟩ : ∃ data : Octets, data.length = 4194304 :=
    ⟨List.replicate _ 0, List.length_replicate⟩
  let l : Layout := ⟨4194304, 4194304, 64, 1, by decide, by decide, by decide, by decide⟩
  refine ⟨l, Layout.new_self l, data, hd, ?_⟩
  exact buildEncoder_several Raptorq.partition_sliced hd (by decide) (by decide) rfl

end AtpExperiment
