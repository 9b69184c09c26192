import CppExperiments.Torrent.DiskWriter
import CppExperiments.Torrent.Pieces

/-!
# Where the pieces go

From the pieces of a torrent, completed in any order, to its files: the offset each piece is scheduled at,
the bytes it covers, and the contents of the files that the disk writer makes in the end.
-/

namespace CppExperiments.Torrent

/-- A torrent: the layout and files of the metainfo, and the content whose pieces have the listed hashes. -/
structure Metainfo where
  layout : Layout
  files : List FileStruct
  content : Bytes
  length : content.length = layout.totalSize
  nonempty : 1 ≤ layout.totalSize
  files_sum : (files.map FileStruct.size).sum = layout.totalSize
  hashes : ∀ i, i * layout.pieceSize < layout.totalSize →
    (layout.pieceBlob.drop (i * 20)).take 20 = Hash.sha1 (tile content layout.pieceSize i) true

namespace Metainfo

variable (t : Metainfo)

/-- The number of pieces that the content has. -/
def count : Nat := (t.layout.totalSize + t.layout.pieceSize - 1) / t.layout.pieceSize

/-- A piece of which all blocks have arrived. -/
def received (i : Nat) : Piece :=
  { Piece.ofIdx t.layout i with
    buffer := tile t.content t.layout.pieceSize i ++
      zeros (t.layout.pieceSize - (tile t.content t.layout.pieceSize i).length) }

/-- What is scheduled when a piece is complete: its offset and bytes; nothing if the hash check throws or fails. -/
def deliver (i : Nat) : Option (Nat × Bytes) := do
  let ready ← PieceManager.checkPiece t.layout i (t.received i)
  let bytes ← ready
  return (pieceOffset t.layout i, bytes)

/-- The range of bytes that a piece has to cover. -/
def Covers (i : Nat) (w : Nat × Bytes) : Prop :=
  w.1 = i * t.layout.pieceSize ∧
    w.1 + w.2.length = min ((i + 1) * t.layout.pieceSize) t.layout.totalSize

/-- The pieces complete in the given order: each is delivered and covers its range, the ranges are disjoint and
make up the content, and however scheduling and writing interleave, every file gets the bytes behind those of the
files before it. -/
def Placed (order : List Nat) : Prop :=
  ∃ writes, order.mapM t.deliver = some writes ∧ List.Forall₂ t.Covers order writes ∧
    writes.Pairwise (fun w w' => w.1 + w.2.length ≤ w'.1 ∨ w'.1 + w'.2.length ≤ w.1) ∧
    (∀ x, x < t.layout.totalSize ↔ ∃ w ∈ writes, w.1 ≤ x ∧ x < w.1 + w.2.length) ∧
    ∀ MAX_QUEUE steps w, DiskWriter.scheduled steps = writes →
      DiskWriter.run MAX_QUEUE steps (DiskWriter.start t.layout.totalSize) = some w →
      ∃ made, w.finish t.files true = (true, made) ∧ made.map Prod.fst = t.files.map FileStruct.path ∧
        ∀ k, (made.map Prod.snd)[k]? = (t.files.map FileStruct.size)[k]?.map (fun size =>
          (t.content.drop ((t.files.map FileStruct.size).take k).sum).take size)

/-- Every order in which the pieces can complete puts the content in place. -/
def PlacedAlways : Prop := ∀ order : List Nat, order.Perm (List.range t.count) → t.Placed order

variable {t} {i : Nat}

lemma received_buffer : (t.received i).buffer = tile t.content t.layout.pieceSize i ++
    zeros (t.layout.pieceSize - (tile t.content t.layout.pieceSize i).length) := by
  simp only [received]

lemma received_actualPieceSize : (t.received i).actualPieceSize = t.layout.actualPieceSize i := by
  simp only [received, Piece.ofIdx]

lemma lt_count_iff : i < t.count ↔ i * t.layout.pieceSize < t.layout.totalSize := by
  have hpos := t.layout.pieceSize_pos
  rw [count, Nat.lt_div_iff_mul_lt hpos]
  omega

lemma count_eq (t : Metainfo) : t.count = t.layout.totalSize ⌈/⌉ t.layout.pieceSize :=
  (Nat.ceilDiv_eq_add_pred_div _ _).symm

lemma actualPieceSize_eq (h : t.layout.totalSize + t.layout.pieceSize - 1 < 2 ^ 32) (hi : i < t.count) :
    t.layout.actualPieceSize i = (tile t.content t.layout.pieceSize i).length := by
  rw [Layout.actualPieceSize_eq h (lt_count_iff.1 hi), length_tile, t.length, Nat.succ_mul]
  omega

theorem deliver_eq (h : t.layout.totalSize + t.layout.pieceSize - 1 < 2 ^ 32) (hi : i < t.count) :
    t.deliver i = some (i * t.layout.pieceSize, tile t.content t.layout.pieceSize i) := by
  have hin := lt_count_iff.1 hi
  have hlisted := t.hashes i hin
  have hblob : ¬ i * 20 > t.layout.pieceBlob.length := by
    intro hlong
    rw [List.drop_eq_nil_of_le hlong.le] at hlisted
    have hlen := congrArg List.length hlisted
    simp [Hash.length_sha1] at hlen
  have hhash : PieceManager.getPieceHash t.layout i = some (Hash.sha1 (tile t.content t.layout.pieceSize i) true) := by
    rw [PieceManager.getPieceHash, if_neg (by rw [Layout.numPieces_eq h, ← count_eq]; omega), if_neg hblob, hlisted]
  have hbytes : (t.received i).buffer.take (t.received i).actualPieceSize = tile t.content t.layout.pieceSize i := by
    rw [received_actualPieceSize, actualPieceSize_eq h hi, received_buffer, List.take_left]
  have hoffset : pieceOffset t.layout i = i * t.layout.pieceSize := Nat.mod_eq_of_lt (by omega)
  rw [deliver, PieceManager.checkPiece, hhash, hbytes, hoffset]
  simp

theorem deliver_eq_none (hi : t.layout.numPieces ≤ i) : t.deliver i = none := by
  rw [deliver, PieceManager.checkPiece, PieceManager.getPieceHash, if_pos hi]
  rfl

lemma not_placedAlways (h : ¬ t.layout.totalSize + t.layout.pieceSize - 1 < 2 ^ 32) : ¬ t.PlacedAlways := by
  intro hall
  obtain ⟨writes, hwrites, -⟩ := hall (List.range t.count) (List.Perm.refl _)
  have hlt := Layout.numPieces_lt h
  rw [← count_eq] at hlt
  have hnone := mapM_eq_none (f := t.deliver) (List.mem_range.2 hlt) (deliver_eq_none le_rfl)
  rw [hnone] at hwrites
  cases hwrites

/-- A torrent with one file of zeros, in pieces of 256 KiB. -/
def zeroFile (size : Nat) (hpos : 1 ≤ size) (hlt : size < 2 ^ 64) : Metainfo where
  layout :=
    { totalSize := size
      pieceSize := 2 ^ 18
      blockSize := 2 ^ 14
      pieceBlob := (List.range ((size + 2 ^ 18 - 1) / 2 ^ 18)).flatMap fun i =>
        Hash.sha1 (tile (zeros size) (2 ^ 18) i) true
      totalSize_lt := hlt
      pieceSize_pos := by decide
      pieceSize_lt := by decide
      blockSize_pos := by decide
      blockSize_lt := by decide }
  files := [⟨[], size⟩]
  content := zeros size
  length := length_zeros size
  nonempty := hpos
  files_sum := by simp
  hashes := fun i hi => tile_flatMap (fun i => Hash.length_sha1 _) (by dsimp only at hi; omega)

end Metainfo

end CppExperiments.Torrent
