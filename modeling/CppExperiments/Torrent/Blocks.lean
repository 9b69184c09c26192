import CppExperiments.Torrent.Pieces
import Mathlib.Algebra.BigOperators.Group.Finset.Basic

/-!
# Piece and block sizes

How a torrent is cut into pieces and a piece into blocks, for all the sizes that a metainfo and the command line can
name. The sums in the code are 64, 32 and 16 bits wide.
-/

namespace CppExperiments.Torrent

/-- The sizes of a torrent, with the block size as given on the command line. -/
structure Sizes where
  totalSize : Nat
  pieceSize : Nat
  blockSize : Nat
  pieceBlob : Bytes
  totalSize_pos : 1 ≤ totalSize
  totalSize_lt : totalSize < 2 ^ 64
  pieceSize_pos : 1 ≤ pieceSize
  pieceSize_lt : pieceSize < 2 ^ 32
  blockSize_pos : 1 ≤ blockSize
  blockSize_le : blockSize ≤ 65536

/-- `numPieces` of a `TorrentFile`, in `std::uint64_t`. -/
def TorrentFile.pieceCount (length pieceSize : Nat) : Nat := (length + pieceSize + (2 ^ 64 - 1)) % 2 ^ 64 / pieceSize

/-- The block size is cast to 16 bits. The constructor of the piece manager then divides by it. -/
def Sizes.layout (s : Sizes) : Option Layout :=
  if h : s.blockSize % 2 ^ 16 = 0 then none
  else some ⟨s.totalSize, s.pieceSize, s.blockSize % 2 ^ 16, s.pieceBlob, s.totalSize_lt, s.pieceSize_pos,
    s.pieceSize_lt, Nat.pos_of_ne_zero h, Nat.mod_lt _ (by decide)⟩

/-- A block that can be requested from a new piece, and the size returned for it. -/
def Requests (lay : Layout) (pieceIdx b size : Nat) : Prop :=
  ∃ p, (Piece.ofIdx lay pieceIdx).requestBlockNum lay b = some (size, p)

/-- The blocks of a piece partition it. -/
structure Partitioned (lay : Layout) (pieceIdx : Nat) : Prop where
  within : ∀ b size, Requests lay pieceIdx b size →
    0 < size ∧ b * lay.blockSize + size ≤ lay.actualPieceSize pieceIdx
  covers : ∀ x < lay.actualPieceSize pieceIdx,
    ∃! k : Nat × Nat, Requests lay pieceIdx k.1 k.2 ∧ k.1 * lay.blockSize ≤ x ∧ x < k.1 * lay.blockSize + k.2

/-- The counts and sizes of pieces and blocks are what they are meant to be, and nothing is divided by zero. -/
structure Sizes.Exact (s : Sizes) (lay : Layout) : Prop where
  built : s.layout = some lay
  numPieces : lay.numPieces = s.totalSize ⌈/⌉ s.pieceSize
  torrentFile : TorrentFile.pieceCount s.totalSize s.pieceSize = s.totalSize ⌈/⌉ s.pieceSize
  pos : ∀ i < s.totalSize ⌈/⌉ s.pieceSize, 0 < lay.actualPieceSize i
  sum : ∑ i ∈ Finset.range (s.totalSize ⌈/⌉ s.pieceSize), lay.actualPieceSize i = s.totalSize
  blocks : ∀ i < s.totalSize ⌈/⌉ s.pieceSize, Partitioned lay i

variable {lay : Layout} {pieceIdx b size : Nat} {s : Sizes}

namespace Layout

lemma sum_actualPieceSize (h : lay.totalSize + lay.pieceSize - 1 < 2 ^ 32) {n : Nat}
    (hn : ∀ i < n, i * lay.pieceSize < lay.totalSize) :
    ∑ i ∈ Finset.range n, lay.actualPieceSize i = min (n * lay.pieceSize) lay.totalSize := by
  induction n with
  | zero => simp
  | succ n ih =>
    have hlast := hn n (Nat.lt_succ_self n)
    rw [Finset.sum_range_succ, ih fun i hi => hn i (Nat.lt_succ_of_lt hi), actualPieceSize_eq h hlast, Nat.succ_mul]
    omega

end Layout

/-! ## The blocks of a piece -/

lemma requests_iff : Requests lay pieceIdx b size ↔ b < (Piece.ofIdx lay pieceIdx).actualNumBlocks ∧
    size = ((Piece.ofIdx lay pieceIdx).block lay pieceIdx b).blockSize := by
  have hstates : (Piece.ofIdx lay pieceIdx).states[b]? = some .PENDING ↔
      b < (Piece.ofIdx lay pieceIdx).actualNumBlocks := by
    simp only [Piece.ofIdx, List.getElem?_replicate]
    split
    · rename_i hlt
      exact iff_of_true rfl hlt
    · rename_i hlt
      exact iff_of_false (by simp) hlt
  rw [Requests, ← hstates]
  constructor
  · rintro ⟨p, hrun⟩
    by_cases hpending : (Piece.ofIdx lay pieceIdx).states[b]? = some .PENDING
    · rw [Piece.requestBlockNum_pending pieceIdx hpending] at hrun
      exact ⟨hpending, (Prod.mk.inj (Option.some.inj hrun)).1.symm⟩
    · rw [Piece.requestBlockNum, if_neg hpending] at hrun
      cases hrun
  · rintro ⟨hpending, rfl⟩
    exact ⟨_, Piece.requestBlockNum_pending pieceIdx hpending⟩

lemma block_blockSize : ((Piece.ofIdx lay pieceIdx).block lay pieceIdx b).blockSize =
    if b + 1 < (Piece.ofIdx lay pieceIdx).actualNumBlocks then lay.blockSize
    else if lay.actualPieceSize pieceIdx % lay.blockSize = 0 then lay.blockSize
    else lay.actualPieceSize pieceIdx % lay.blockSize := by
  simp only [Piece.block, Piece.ofIdx]

lemma requests_le (h : Requests lay pieceIdx b size) : size ≤ lay.blockSize := by
  obtain ⟨-, rfl⟩ := requests_iff.1 h
  have hmod := Nat.mod_lt (lay.actualPieceSize pieceIdx) lay.blockSize_pos
  rw [block_blockSize]
  split_ifs <;> omega

/-- Where a block ends. -/
lemma requests_end (hfew : lay.blocksOf pieceIdx ≤ 65535) (h : Requests lay pieceIdx b size) :
    b < lay.blocksOf pieceIdx ∧
      b * lay.blockSize + size = min ((b + 1) * lay.blockSize) (lay.actualPieceSize pieceIdx) := by
  obtain ⟨hb, rfl⟩ := requests_iff.1 h
  rw [Piece.actualNumBlocks_eq hfew] at hb
  refine ⟨hb, ?_⟩
  have hpos := lay.blockSize_pos
  have hin := Layout.block_lt hb
  have hsucc : (b + 1) * lay.blockSize = b * lay.blockSize + lay.blockSize := by ring
  rw [block_blockSize, Piece.actualNumBlocks_eq hfew]
  by_cases hmore : b + 1 < lay.blocksOf pieceIdx
  · have hnext := Layout.block_lt hmore
    rw [if_pos hmore]
    omega
  · have hcover := lay.actualPieceSize_le_blocks pieceIdx
    have hlast : lay.blocksOf pieceIdx = b + 1 := by omega
    rw [hlast] at hcover
    have hmod : lay.actualPieceSize pieceIdx % lay.blockSize =
        (lay.actualPieceSize pieceIdx - b * lay.blockSize) % lay.blockSize := by
      rw [← Nat.add_mul_mod_self_right (lay.actualPieceSize pieceIdx - _) b, Nat.sub_add_cancel hin.le]
    rw [if_neg hmore]
    by_cases hfull : lay.actualPieceSize pieceIdx - b * lay.blockSize = lay.blockSize
    · rw [hfull, Nat.mod_self] at hmod
      rw [if_pos hmod]
      omega
    · have hless : lay.actualPieceSize pieceIdx - b * lay.blockSize < lay.blockSize := by omega
      rw [Nat.mod_eq_of_lt hless] at hmod
      rw [if_neg (by omega), hmod]
      omega

theorem partitioned_of_few (hfew : lay.blocksOf pieceIdx ≤ 65535) : Partitioned lay pieceIdx where
  within := by
    intro b size h
    obtain ⟨hb, hend⟩ := requests_end hfew h
    have hin := Layout.block_lt hb
    have hpos := lay.blockSize_pos
    have hsucc : (b + 1) * lay.blockSize = b * lay.blockSize + lay.blockSize := by ring
    omega
  covers := by
    intro x hx
    have hpos := lay.blockSize_pos
    have hcover := lay.actualPieceSize_le_blocks pieceIdx
    have hdiv : x / lay.blockSize < lay.blocksOf pieceIdx := (Nat.div_lt_iff_lt_mul hpos).2 (lt_of_lt_of_le hx hcover)
    have hle : x / lay.blockSize * lay.blockSize ≤ x := Nat.div_mul_le_self x lay.blockSize
    have hlt : x < (x / lay.blockSize + 1) * lay.blockSize := (Nat.div_lt_iff_lt_mul hpos).1 (Nat.lt_succ_self _)
    have hreq : Requests lay pieceIdx (x / lay.blockSize) _ :=
      requests_iff.2 ⟨by rwa [Piece.actualNumBlocks_eq hfew], rfl⟩
    have hend := (requests_end hfew hreq).2
    refine ⟨(x / lay.blockSize, _), ⟨hreq, hle, hend ▸ lt_min hlt hx⟩, ?_⟩
    rintro ⟨b, size⟩ ⟨hb, hble, hblt⟩
    have hbend := (requests_end hfew hb).2
    have hbless : x < (b + 1) * lay.blockSize := lt_of_lt_of_le hblt (hbend.le.trans (min_le_left _ _))
    obtain rfl : x / lay.blockSize = b := (Nat.div_eq_iff hpos).2 ⟨hble, by
      rw [Nat.add_mul, Nat.one_mul] at hbless
      omega⟩
    rw [Prod.mk.injEq]
    exact ⟨rfl, Nat.add_left_cancel (hbend.trans hend.symm)⟩

/-- Sixteen bits count too few blocks to cover a larger piece. -/
theorem not_partitioned (hmany : ¬ lay.blocksOf pieceIdx ≤ 65535) : ¬ Partitioned lay pieceIdx := by
  intro h
  have hpos := lay.blockSize_pos
  have hlong : 65535 * lay.blockSize < lay.actualPieceSize pieceIdx := by
    rw [Layout.blocksOf, ← Nat.ceilDiv_eq_add_pred_div, ceilDiv_le_iff_le_mul hpos, not_le] at hmany
    omega
  obtain ⟨⟨b, size⟩, ⟨hb, -, hlt⟩, -⟩ := h.covers (lay.actualPieceSize pieceIdx - 1) (by omega)
  have hle := requests_le hb
  have hfew : (Piece.ofIdx lay pieceIdx).actualNumBlocks < 2 ^ 16 := Nat.mod_lt _ (by decide)
  have hcount := (requests_iff.1 hb).1
  simp only at hlt hb hcount
  have hmul : (b + 1) * lay.blockSize ≤ 65535 * lay.blockSize := Nat.mul_le_mul_right _ (by omega)
  have hsucc : (b + 1) * lay.blockSize = b * lay.blockSize + lay.blockSize := by ring
  omega

/-! ## All sizes -/

/-- The sums fit: that for the pieces into 32 bits, the block size and the number of blocks in a piece into 16. -/
def Sizes.Fits (s : Sizes) : Prop :=
  s.totalSize + s.pieceSize - 1 < 2 ^ 32 ∧ s.blockSize ≤ 65535 ∧
    min s.pieceSize s.totalSize ⌈/⌉ s.blockSize ≤ 65535

namespace Sizes

lemma layout_eq (h : s.layout = some lay) : s.blockSize ≤ 65535 ∧ lay.totalSize = s.totalSize ∧
    lay.pieceSize = s.pieceSize ∧ lay.blockSize = s.blockSize := by
  have hpos := s.blockSize_pos
  have hle := s.blockSize_le
  unfold layout at h
  split at h
  · cases h
  · obtain rfl := Option.some.inj h
    exact ⟨by omega, rfl, rfl, Nat.mod_eq_of_lt (by omega)⟩

lemma exists_layout (h : s.blockSize ≤ 65535) : ∃ lay, s.layout = some lay := by
  have hpos := s.blockSize_pos
  exact ⟨_, dif_neg (by omega)⟩

lemma numPieces_torrentFile (h : s.totalSize + s.pieceSize - 1 < 2 ^ 32) :
    TorrentFile.pieceCount s.totalSize s.pieceSize = s.totalSize ⌈/⌉ s.pieceSize := by
  have hpos := s.totalSize_pos
  have hsum : (s.totalSize + s.pieceSize + (2 ^ 64 - 1)) % 2 ^ 64 = s.totalSize + s.pieceSize - 1 := by omega
  rw [TorrentFile.pieceCount, hsum, Nat.ceilDiv_eq_add_pred_div]

lemma numPieces_lt (hlay : s.layout = some lay) (h : ¬ s.totalSize + s.pieceSize - 1 < 2 ^ 32) :
    lay.numPieces < s.totalSize ⌈/⌉ s.pieceSize := by
  obtain ⟨-, htotal, hpiece, -⟩ := layout_eq hlay
  rw [← htotal, ← hpiece] at h ⊢
  exact Layout.numPieces_lt h

/-- The counts and sizes of pieces and blocks are right, for all sizes that are admitted, exactly if the sums fit. -/
theorem exact_iff_fits (s : Sizes) : (∃ lay, s.Exact lay) ↔ s.Fits := by
  have hpos := s.pieceSize_pos
  have hin : ∀ i, i < s.totalSize ⌈/⌉ s.pieceSize ↔ i * s.pieceSize < s.totalSize := by
    intro i
    rw [← not_le, ceilDiv_le_iff_le_mul hpos, Nat.mul_comm, not_le]
  constructor
  · rintro ⟨lay, h⟩
    obtain ⟨hblock, htotal, hpiece, hsize⟩ := layout_eq h.built
    have hsum : s.totalSize + s.pieceSize - 1 < 2 ^ 32 := by
      by_contra hwrap
      exact absurd h.numPieces (numPieces_lt h.built hwrap).ne
    have hzero : 0 * lay.pieceSize < lay.totalSize := by
      rw [Nat.zero_mul, htotal]
      exact s.totalSize_pos
    have hfirst : lay.blocksOf 0 ≤ 65535 := by
      by_contra hmany
      exact not_partitioned hmany (h.blocks 0 ((hin 0).2 (by rwa [htotal, hpiece] at hzero)))
    rw [Layout.blocksOf, Layout.actualPieceSize_eq (by rwa [htotal, hpiece]) hzero, Nat.zero_mul, Nat.sub_zero,
      htotal, hpiece, hsize, ← Nat.ceilDiv_eq_add_pred_div] at hfirst
    exact ⟨hsum, hblock, hfirst⟩
  · rintro ⟨hsum, hblock, hfew⟩
    obtain ⟨lay, hlay⟩ := exists_layout hblock
    obtain ⟨-, htotal, hpiece, hsize⟩ := layout_eq hlay
    have hsum' : lay.totalSize + lay.pieceSize - 1 < 2 ^ 32 := by rwa [htotal, hpiece]
    have hstart : ∀ i < s.totalSize ⌈/⌉ s.pieceSize, i * lay.pieceSize < lay.totalSize := by
      intro i hi
      rw [htotal, hpiece]
      exact (hin i).1 hi
    refine ⟨lay, hlay, ?_, numPieces_torrentFile hsum, ?_, ?_, ?_⟩
    · rw [Layout.numPieces_eq hsum', htotal, hpiece]
    · intro i _
      exact lay.actualPieceSize_pos i
    · have hcover : s.totalSize ≤ s.totalSize ⌈/⌉ s.pieceSize * s.pieceSize := by
        rw [Nat.mul_comm]
        exact (ceilDiv_le_iff_le_mul hpos).1 le_rfl
      rw [Layout.sum_actualPieceSize hsum' hstart, htotal, hpiece, Nat.min_eq_right hcover]
    · intro i hi
      refine partitioned_of_few (le_trans ?_ hfew)
      rw [Layout.blocksOf, Layout.actualPieceSize_eq hsum' (hstart i hi), hsize, htotal, hpiece,
        ← Nat.ceilDiv_eq_add_pred_div]
      exact (ceilDiv_le_iff_le_mul s.blockSize_pos).2 (le_trans (min_le_min_left _ (Nat.sub_le _ _))
        ((ceilDiv_le_iff_le_mul s.blockSize_pos).1 le_rfl))

/-- A terabyte in pieces of 16 megabytes. -/
def terabyte : Sizes := ⟨2 ^ 40, 2 ^ 24, 2 ^ 14, [], by decide, by decide, by decide, by decide, by decide, by decide⟩

/-- It has 65536 pieces; the piece manager counts none. -/
theorem not_exact_terabyte : ¬ ∀ s : Sizes, ∃ lay, s.Exact lay := by
  intro h
  obtain ⟨lay, hlay⟩ := h terabyte
  exact absurd hlay.numPieces (numPieces_lt hlay.built (by decide)).ne

end Sizes

end CppExperiments.Torrent
