/-
From a manifest to the file.

The Manifest branch rejects zero sizes and a wrong block count, but not a block
count that leaves `u32`: on that `Layout::new` panics (`manifest_check_iff`).

For a layout that was built, the ranges cut the file into consecutive blocks of
`block_size` bytes, the last one possibly shorter, and no arithmetic on the way
overflows or truncates. So the blocks of a file, written back in any order and
any number of times, are the file (`layout_partition`).
-/
import AtpExperiment.Lib.Runs
import AtpExperiment.Recv

namespace AtpExperiment

open Octets

theorem divCeil_le_iff {a b : Nat} (hb : 0 < b) (n : Nat) : divCeil a b ≤ n ↔ a ≤ n * b := by
  rw [← Nat.not_lt, lt_divCeil hb, Nat.not_lt]

/-! ## The Manifest check -/

section Manifest

variable {fileSize : UInt64} {blockSize : UInt32} {symbolSize : UInt16}
variable (t : UInt64) (name sha256 : String) (numBlocks : UInt32)

theorem sizes_pos (h : ¬ (fileSize = 0 ∨ blockSize = 0 ∨ symbolSize = 0)) :
    0 < fileSize.toNat ∧ 0 < blockSize.toNat ∧ 0 < symbolSize.toNat := by
  simp only [not_or] at h
  refine ⟨Nat.pos_of_ne_zero fun h0 => h.1 ?_, Nat.pos_of_ne_zero fun h0 => h.2.1 ?_,
    Nat.pos_of_ne_zero fun h0 => h.2.2 ?_⟩
  · exact UInt64.toNat.inj h0
  · exact UInt32.toNat.inj h0
  · exact UInt16.toNat.inj h0

theorem onManifest_of_degenerate (h : fileSize = 0 ∨ blockSize = 0 ∨ symbolSize = 0) :
    onManifest t (.manifest name fileSize sha256 blockSize symbolSize numBlocks) =
      .returned (.error (.protocol "degenerate manifest")) := by
  simp only [onManifest, acceptManifest, if_pos h]
  rfl

theorem onManifest_of_not_fits (h : ¬ (fileSize = 0 ∨ blockSize = 0 ∨ symbolSize = 0))
    (hn : ¬ divCeil fileSize.toNat blockSize.toNat < 2 ^ 32) :
    onManifest t (.manifest name fileSize sha256 blockSize symbolSize numBlocks) = .panicked := by
  obtain ⟨hf, hb, hs⟩ := sizes_pos h
  have hnew : Layout.new fileSize blockSize symbolSize = .error .assertion := by
    rw [Layout.new, dif_pos hf, dif_pos ⟨hb, hs⟩, dif_neg hn]
  simp only [onManifest, acceptManifest, if_neg h, hnew]
  rfl

/-- It fits: the layout, or the mismatch with the frame's count. -/
theorem onManifest_of_fits (h : ¬ (fileSize = 0 ∨ blockSize = 0 ∨ symbolSize = 0))
    (hn : divCeil fileSize.toNat blockSize.toNat < 2 ^ 32) :
    ∃ l : Layout, l.fileSize = fileSize ∧ l.blockSize = blockSize ∧ l.symbolSize = symbolSize ∧
      onManifest t (.manifest name fileSize sha256 blockSize symbolSize numBlocks) =
        if l.numBlocks = numBlocks then .create t ⟨sha256, l⟩
        else .returned (.error (.protocol ("block count mismatch: manifest " ++
          toString numBlocks ++ ", computed " ++ toString l.numBlocks))) := by
  obtain ⟨hf, hb, hs⟩ := sizes_pos h
  let l : Layout := ⟨fileSize, blockSize, symbolSize,
    UInt32.ofNat (divCeil fileSize.toNat blockSize.toNat), hf, hb, hs,
    UInt32.toNat_ofNat_of_lt hn⟩
  have hnew : Layout.new fileSize blockSize symbolSize = .ok l := l.new_self
  refine ⟨l, rfl, rfl, rfl, ?_⟩
  simp only [onManifest, acceptManifest, if_neg h, hnew, Checked.ok_bind]
  by_cases hnum : l.numBlocks = numBlocks
  · simp only [hnum, ne_eq, not_true_eq_false, if_false, if_true]
    rfl
  · simp only [hnum, ne_eq, not_false_eq_true, if_true, if_false]
    rfl

/-- A size is zero, or the block count fits `u32`. -/
def ManifestFits (fileSize : UInt64) (blockSize : UInt32) (symbolSize : UInt16) : Prop :=
  (fileSize = 0 ∨ blockSize = 0 ∨ symbolSize = 0) ∨
    divCeil fileSize.toNat blockSize.toNat < 2 ^ 32

/-- **The Manifest check.** On a Manifest frame the branch returns a protocol
error, or accepts a layout with exactly the frame's sizes and a block count of
`file_size / block_size` rounded up, if and only if a size is zero or that
count fits `u32`; otherwise it panics. -/
theorem manifest_check_iff (fileSize : UInt64) (blockSize : UInt32) (symbolSize : UInt16) :
    (((∃ msg, onManifest t (.manifest name fileSize sha256 blockSize symbolSize numBlocks) =
        .returned (.error (.protocol msg))) ∨
      ∃ l : Layout, onManifest t (.manifest name fileSize sha256 blockSize symbolSize numBlocks) =
          .create t ⟨sha256, l⟩ ∧
        l.fileSize = fileSize ∧ l.blockSize = blockSize ∧ l.symbolSize = symbolSize ∧
        l.numBlocks = numBlocks ∧ numBlocks.toNat = divCeil fileSize.toNat blockSize.toNat) ↔
      ManifestFits fileSize blockSize symbolSize) ∧
    (onManifest t (.manifest name fileSize sha256 blockSize symbolSize numBlocks) = .panicked ↔
      ¬ ManifestFits fileSize blockSize symbolSize) := by
  by_cases hz : fileSize = 0 ∨ blockSize = 0 ∨ symbolSize = 0
  · rw [onManifest_of_degenerate t name sha256 numBlocks hz]
    have hfits : ManifestFits fileSize blockSize symbolSize := .inl hz
    exact ⟨iff_of_true (.inl ⟨_, rfl⟩) hfits, iff_of_false (by simp) (not_not.mpr hfits)⟩
  by_cases hn : divCeil fileSize.toNat blockSize.toNat < 2 ^ 32
  · obtain ⟨l, hf, hb, hs, hman⟩ := onManifest_of_fits t name sha256 numBlocks hz hn
    have hfits : ManifestFits fileSize blockSize symbolSize := .inr hn
    rw [hman]
    split
    · next hnum =>
      refine ⟨iff_of_true (.inr ⟨l, rfl, hf, hb, hs, hnum, ?_⟩) hfits,
        iff_of_false (by simp) (not_not.mpr hfits)⟩
      rw [← hnum, l.blocks_eq, hf, hb]
    · exact ⟨iff_of_true (.inl ⟨_, rfl⟩) hfits, iff_of_false (by simp) (not_not.mpr hfits)⟩
  · rw [onManifest_of_not_fits t name sha256 numBlocks hz hn]
    have hnot : ¬ ManifestFits fileSize blockSize symbolSize := fun h => h.elim hz hn
    exact ⟨iff_of_false (by simp) hnot, iff_of_true rfl hnot⟩

end Manifest

/-- A file of 4 GiB in blocks of one byte: a peer that greets with the right
version and sends this Manifest takes the receiver down. -/
theorem manifest_check_panics : ∃ s : RecvState .repetition,
    Runs.Trace (RecvStep .identity .plain fun _ _ _ _ => none) (.init .repetition)
      [.read (.hello version 7 none), .tau, .write (.helloAck (some 9)) true,
        .read (.manifest "f" 4294967296 "" 1 1 0)] s ∧ s.pc = .panicked := by
  have hpanic : onManifest 7 (.manifest "f" 4294967296 "" 1 1 0) = .panicked :=
    onManifest_of_not_fits 7 "f" "" 0 (by decide) (by decide)
  exact ⟨_, .cons (.hello rfl) (.cons (.bindPush (t := 7) rfl 9) (.cons (.helloAck rfl)
    (.cons (.manifest rfl) .nil))), hpanic⟩

/-! ## The partition -/

namespace Layout

variable {l : Layout} {b c : UInt32}

theorem divCeil_le (a : Nat) {d : Nat} (hd : 0 < d) : divCeil a d ≤ a := by
  rw [divCeil_le_iff hd]
  exact Nat.le_mul_of_pos_right a hd

theorem sourceSymbols_of_lt (h : b < l.numBlocks) :
    l.sourceSymbols b = .ok (divCeil (l.stop b - l.start b) l.symbolSize.toNat) := by
  have hlt : divCeil (l.stop b - l.start b) l.symbolSize.toNat < 2 ^ 32 := by
    have hle := divCeil_le (l.stop b - l.start b) l.symbol_pos
    have hlen : l.stop b - l.start b ≤ l.blockSize.toNat := by
      have := Nat.min_le_left (l.start b + l.blockSize.toNat) l.fileSize.toNat
      rw [stop]
      omega
    have := l.blockSize.toNat_lt
    omega
  rw [sourceSymbols, blockLen_of_lt h, Checked.ok_bind, Nat.mod_eq_of_lt hlt]
  rfl

/-- A block before another one is full. -/
theorem stop_of_succ_lt (h : b.toNat + 1 < l.numBlocks.toNat) :
    l.stop b = l.start b + l.blockSize.toNat := by
  rw [l.blocks_eq, lt_divCeil l.block_pos, Nat.add_mul, Nat.one_mul] at h
  exact Nat.min_eq_left h.le

theorem stop_of_last (h : b.toNat + 1 = l.numBlocks.toNat) : l.stop b = l.fileSize.toNat := by
  have hle : l.fileSize.toNat ≤ (b.toNat + 1) * l.blockSize.toNat := by
    rw [← divCeil_le_iff l.block_pos, ← l.blocks_eq, h]
  rw [Nat.add_mul, Nat.one_mul] at hle
  exact Nat.min_eq_right hle

/-! ## Writing the blocks back -/

/-- Block `b` of `data`, sliced as `get_encoder` does, written where the
receiver writes it. -/
def writeBlock (l : Layout) (data file : Octets) (b : UInt32) : Checked Octets := do
  let r ← l.range b
  if data.length < r.stop then throw .outOfBounds
  return writeAt file r.start (slice data r.start r.stop)

/-- Blocks of `data` written one after the other. -/
def writeBlocks (l : Layout) (data : Octets) : Octets → List UInt32 → Checked Octets
  | file, [] => return file
  | file, b :: bs => do
    let file ← l.writeBlock data file b
    l.writeBlocks data file bs

theorem writeBlock_of_lt {data : Octets} (hd : data.length = l.fileSize.toNat)
    (file : Octets) (h : b < l.numBlocks) :
    l.writeBlock data file b = .ok (writeAt file (l.start b) (l.block data b)) := by
  have hin : ¬ data.length < l.stop b := by
    have := l.stop_le b
    omega
  simp only [writeBlock, range_of_lt h, Checked.ok_bind, if_neg hin]
  rfl

/-- A run of writes: the file keeps its length, and holds the blocks written
and those it held before. -/
theorem writeBlocks_spec {data : Octets} (hd : data.length = l.fileSize.toNat)
    (order : List UInt32) (hlt : ∀ b ∈ order, b < l.numBlocks) {file : Octets}
    (hf : file.length = l.fileSize.toNat) :
    ∃ file', l.writeBlocks data file order = .ok file' ∧ file'.length = l.fileSize.toNat ∧
      ∀ b, b < l.numBlocks → b ∈ order ∨ HoldsAt file (l.start b) (l.block data b) →
        HoldsAt file' (l.start b) (l.block data b) := by
  induction order generalizing file with
  | nil => exact ⟨file, rfl, hf, fun b _ hb => hb.resolve_left (by simp)⟩
  | cons c order ih =>
    have hc := hlt c List.mem_cons_self
    have hstop := l.stop_le c
    have hpos := start_lt_stop hc
    have hext : l.start c + (l.block data c).length ≤ file.length := by
      rw [length_block hd, hf]
      omega
    obtain ⟨file', hw, hlen, hholds⟩ := ih (fun b hb => hlt b (List.mem_cons_of_mem c hb))
      ((length_writeAt hext).trans hf)
    refine ⟨file', ?_, hlen, fun b hb hor => hholds b hb ?_⟩
    · simp only [writeBlocks, writeBlock_of_lt hd file hc, Checked.ok_bind, hw]
    by_cases he : b = c
    · subst he
      exact .inr (holdsAt_writeAt hext)
    · rcases hor with hmem | hheld
      · exact .inl ((List.mem_cons.mp hmem).resolve_left he)
      · -- Another block lies beside the extent written.
        refine .inr (hheld.writeAt hext ?_)
        have hb' := start_lt_stop hb
        rw [length_block hd, length_block hd]
        rcases disjoint (l := l) he with h | h
        · exact .inl (by omega)
        · exact .inr (by omega)

/-- **The layout partitions the file, and the file is reassembled in any
order.** For every layout that `Layout::new` returns and every block below
`num_blocks`, `range`, `block_len` and `source_symbols` return their exact
values; the ranges are non-empty, start at 0, follow each other without gaps,
end with the file, and are full but for the last. For any data of the file's
length, its blocks written in any order, each at least once, over any file of
that length give the data. -/
theorem layout_partition {fileSize : UInt64} {blockSize : UInt32} {symbolSize : UInt16}
    (h : new fileSize blockSize symbolSize = .ok l) :
    (∀ b, b < l.numBlocks →
      l.range b = .ok ⟨l.start b, l.stop b⟩ ∧ l.start b = b.toNat * blockSize.toNat ∧
      l.blockLen b = .ok (l.stop b - l.start b) ∧
      l.sourceSymbols b = .ok (divCeil (l.stop b - l.start b) symbolSize.toNat) ∧
      l.start b < l.stop b) ∧
    (∀ b c, b < l.numBlocks → c < l.numBlocks → b ≠ c →
      l.stop b ≤ l.start c ∨ l.stop c ≤ l.start b) ∧
    (0 < l.numBlocks ∧ l.start 0 = 0) ∧
    (∀ b c : UInt32, c.toNat = b.toNat + 1 → c < l.numBlocks →
      l.stop b = l.start c ∧ l.stop b - l.start b = blockSize.toNat) ∧
    (∀ b : UInt32, b.toNat + 1 = l.numBlocks.toNat →
      l.stop b = fileSize.toNat ∧ l.stop b - l.start b ≤ blockSize.toNat) ∧
    (∀ i, i < fileSize.toNat ↔ ∃ b, b < l.numBlocks ∧ l.start b ≤ i ∧ i < l.stop b) ∧
    ∀ data file : Octets, data.length = fileSize.toNat → file.length = fileSize.toNat →
      ∀ order : List UInt32, (∀ b, b ∈ order ↔ b < l.numBlocks) →
        l.writeBlocks data file order = .ok data := by
  obtain ⟨rfl, rfl, rfl⟩ := new_eq_ok h
  refine ⟨fun b hb => ⟨range_of_lt hb, rfl, blockLen_of_lt hb, sourceSymbols_of_lt hb,
    start_lt_stop hb⟩, fun b c _ _ hne => disjoint hne, ⟨l.numBlocks_pos, by simp [start]⟩, ?_, ?_,
    ?_, ?_⟩
  · intro b c hc hlt
    rw [UInt32.lt_iff_toNat_lt, hc] at hlt
    have hstop := stop_of_succ_lt hlt
    refine ⟨?_, by omega⟩
    rw [hstop, start, start, hc, Nat.add_mul, Nat.one_mul]
  · intro b hb
    refine ⟨stop_of_last hb, ?_⟩
    rw [stop]
    omega
  · intro i
    refine ⟨exists_block, ?_⟩
    rintro ⟨b, -, -, hi⟩
    exact hi.trans_le (l.stop_le b)
  · intro data file hd hf order horder
    obtain ⟨file', hw, hlen, hholds⟩ :=
      writeBlocks_spec hd order (fun b hb => (horder b).mp hb) hf
    rw [hw, eq_of_holdsAt hd hlen fun b hb => hholds b hb (.inl ((horder b).mpr hb))]

/-- Ten bytes in blocks of four, the last block first and the first one twice. -/
theorem layout_partition_ten : ∃ l, new 10 4 2 = .ok l ∧
    l.writeBlocks [0, 1, 2, 3, 4, 5, 6, 7, 8, 9] (List.replicate 10 0) [2, 0, 1, 0] =
      .ok [0, 1, 2, 3, 4, 5, 6, 7, 8, 9] := by
  obtain ⟨l, hl⟩ : ∃ l, new 10 4 2 = .ok l := ⟨_, rfl⟩
  have hnum : l.numBlocks = 3 := by
    cases hl
    rfl
  obtain ⟨-, -, -, -, -, -, hwrite⟩ := layout_partition hl
  refine ⟨l, hl, hwrite _ _ rfl rfl _ fun b => ?_⟩
  simp only [hnum, List.mem_cons, List.not_mem_nil, or_false, UInt32.lt_iff_toNat_lt,
    ← UInt32.toNat_inj, UInt32.toNat_ofNat]
  omega

end Layout

end AtpExperiment
