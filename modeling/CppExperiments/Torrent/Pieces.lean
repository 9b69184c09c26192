import CppExperiments.Lib.Tiling
import CppExperiments.Torrent.PieceManager
import Mathlib.Algebra.Order.Floor.Div

/-!
# The life of a piece

Which blocks the piece manager hands out, what a piece in progress holds of the bytes received for it, and
what becomes of the piece once all its blocks are in, over all sequences of calls in which a block is received
or given back only while it is out.
-/

namespace CppExperiments.Torrent

variable {lay : Layout} {p p' : Piece} {pieceIdx b n room : Nat} {skip : Bool}

/-- How many blocks a piece has. -/
def Layout.blocksOf (lay : Layout) (pieceIdx : Nat) : Nat :=
  (lay.actualPieceSize pieceIdx + lay.blockSize - 1) / lay.blockSize

/-- No piece has more blocks than 16 bits count. -/
def Layout.FewBlocks (lay : Layout) : Prop := (lay.pieceSize + lay.blockSize - 1) / lay.blockSize ≤ 65535

namespace Layout

lemma actualPieceSize_le (lay : Layout) (pieceIdx : Nat) : lay.actualPieceSize pieceIdx ≤ lay.pieceSize := by
  unfold actualPieceSize
  split
  · exact le_rfl
  · exact (Nat.mod_lt _ lay.pieceSize_pos).le

lemma actualPieceSize_pos (lay : Layout) (pieceIdx : Nat) : 0 < lay.actualPieceSize pieceIdx := by
  unfold actualPieceSize
  split
  · exact lay.pieceSize_pos
  · rename_i h
    push Not at h
    exact Nat.pos_of_ne_zero h.2

lemma actualPieceSize_le_blocks (lay : Layout) (pieceIdx : Nat) :
    lay.actualPieceSize pieceIdx ≤ lay.blocksOf pieceIdx * lay.blockSize := by
  have hpos := lay.blockSize_pos
  have hdiv := Nat.div_add_mod (lay.actualPieceSize pieceIdx + lay.blockSize - 1) lay.blockSize
  have hmod := Nat.mod_lt (lay.actualPieceSize pieceIdx + lay.blockSize - 1) hpos
  rw [blocksOf, Nat.mul_comm]
  omega

/-- Every block starts within its piece. -/
lemma block_lt (hb : b < lay.blocksOf pieceIdx) : b * lay.blockSize < lay.actualPieceSize pieceIdx := by
  have hpos := lay.blockSize_pos
  rw [blocksOf, Nat.lt_iff_add_one_le, Nat.le_div_iff_mul_le hpos, Nat.add_mul, Nat.one_mul] at hb
  omega

lemma blocksOf_pos (lay : Layout) (pieceIdx : Nat) : 0 < lay.blocksOf pieceIdx := by
  have hpos := lay.actualPieceSize_pos pieceIdx
  rw [blocksOf]
  exact Nat.div_pos (by omega) lay.blockSize_pos

lemma FewBlocks.blocksOf_le (h : lay.FewBlocks) (pieceIdx : Nat) : lay.blocksOf pieceIdx ≤ 65535 := by
  have hle := lay.actualPieceSize_le pieceIdx
  refine le_trans (Nat.div_le_div_right ?_) h
  omega

lemma sum_lt (hfew : lay.blocksOf pieceIdx ≤ 65535) : lay.actualPieceSize pieceIdx + lay.blockSize - 1 < 2 ^ 32 := by
  have hlt := lay.blockSize_lt
  have hdiv := Nat.div_add_mod (lay.actualPieceSize pieceIdx + lay.blockSize - 1) lay.blockSize
  have hmod := Nat.mod_lt (lay.actualPieceSize pieceIdx + lay.blockSize - 1) lay.blockSize_pos
  have hmul : lay.blockSize * lay.blocksOf pieceIdx ≤ 65535 * 65535 := Nat.mul_le_mul (by omega) hfew
  rw [blocksOf] at hmul
  omega

/-- The sum that the number of pieces is computed from is cut to 32 bits: the number is right unless it wraps. -/
lemma numPieces_eq (h : lay.totalSize + lay.pieceSize - 1 < 2 ^ 32) :
    lay.numPieces = lay.totalSize ⌈/⌉ lay.pieceSize := by
  rw [numPieces, Nat.mod_eq_of_lt h, Nat.ceilDiv_eq_add_pred_div]

lemma numPieces_lt (h : ¬ lay.totalSize + lay.pieceSize - 1 < 2 ^ 32) :
    lay.numPieces < lay.totalSize ⌈/⌉ lay.pieceSize := by
  have hlt := lay.pieceSize_lt
  have hle := Nat.div_mul_le_self ((lay.totalSize + lay.pieceSize - 1) % 2 ^ 32) lay.pieceSize
  rw [numPieces, ← not_le, ceilDiv_le_iff_le_mul lay.pieceSize_pos, Nat.mul_comm]
  omega

/-- The last piece is what the others leave. -/
theorem actualPieceSize_eq (h : lay.totalSize + lay.pieceSize - 1 < 2 ^ 32)
    (hi : pieceIdx * lay.pieceSize < lay.totalSize) :
    lay.actualPieceSize pieceIdx = min lay.pieceSize (lay.totalSize - pieceIdx * lay.pieceSize) := by
  have hpos := lay.pieceSize_pos
  have hnum := numPieces_eq h
  have hlt : pieceIdx < lay.numPieces := by
    rw [hnum, ← not_le, ceilDiv_le_iff_le_mul hpos, Nat.mul_comm]
    exact not_le.2 hi
  have hsmall : lay.numPieces < 2 ^ 32 := lt_of_le_of_lt (Nat.div_le_self _ _) (Nat.mod_lt _ (by decide))
  have hwrap : (lay.numPieces + (2 ^ 32 - 1)) % 2 ^ 32 = lay.numPieces - 1 := by omega
  have hnext : pieceIdx + 1 < lay.numPieces ↔ (pieceIdx + 1) * lay.pieceSize < lay.totalSize := by
    rw [hnum, ← not_le, ceilDiv_le_iff_le_mul hpos, Nat.mul_comm, not_le]
  have hsucc : (pieceIdx + 1) * lay.pieceSize = pieceIdx * lay.pieceSize + lay.pieceSize := by ring
  have hmod : lay.totalSize % lay.pieceSize = (lay.totalSize - pieceIdx * lay.pieceSize) % lay.pieceSize := by
    rw [← Nat.add_mul_mod_self_right (lay.totalSize - _) pieceIdx, Nat.sub_add_cancel hi.le]
  rw [actualPieceSize, hwrap]
  rcases lt_trichotomy (lay.totalSize - pieceIdx * lay.pieceSize) lay.pieceSize with hless | hsame | hmore
  · rw [Nat.mod_eq_of_lt hless] at hmod
    rw [if_neg (by omega)]
    omega
  · rw [hsame, Nat.mod_self] at hmod
    rw [if_pos (Or.inr hmod)]
    omega
  · rw [if_pos (Or.inl (by omega))]
    omega

end Layout

lemma Piece.actualNumBlocks_eq (hfew : lay.blocksOf pieceIdx ≤ 65535) :
    (Piece.ofIdx lay pieceIdx).actualNumBlocks = lay.blocksOf pieceIdx := by
  have hsum := Nat.mod_eq_of_lt (Layout.sum_lt hfew)
  rw [Layout.blocksOf] at hfew ⊢
  simp only [Piece.ofIdx, hsum]
  exact Nat.mod_eq_of_lt (by omega)

lemma Piece.ofIdx_actualNumBlocks (h : lay.FewBlocks) (pieceIdx : Nat) :
    (Piece.ofIdx lay pieceIdx).actualNumBlocks = lay.blocksOf pieceIdx :=
  actualNumBlocks_eq (h.blocksOf_le pieceIdx)

/-! ## The blocks handed out -/

/-- What handing out a block does to its piece. -/
def Piece.mark (p : Piece) (b : Nat) : Piece :=
  { p with states := p.states.set b .REQUESTED, requestedBlocks := incr16 p.requestedBlocks }

/-- The blocks of a piece in progress that are still to be asked for. -/
def Piece.pendingBlocks (p : Piece) (blockIdx n : Nat) : List Nat :=
  (List.range' blockIdx n).filter (fun b => p.states[b]? = some .PENDING)

def Piece.block (lay : Layout) (pieceIdx : Nat) (p : Piece) (b : Nat) : PieceBlock :=
  ⟨pieceIdx, b * lay.blockSize, if b + 1 < p.actualNumBlocks then lay.blockSize else p.lastBlockSize⟩

lemma Piece.requestBlockNum_pending (pieceIdx : Nat) (h : p.states[b]? = some .PENDING) :
    p.requestBlockNum lay b = some ((p.block lay pieceIdx b).blockSize, p.mark b) := by
  rw [requestBlockNum, if_pos h]
  rfl

lemma Piece.pendingBlocks_mark {blockIdx : Nat} (h : b < blockIdx) (n : Nat) :
    (p.mark b).pendingBlocks blockIdx n = p.pendingBlocks blockIdx n := by
  apply List.filter_congr
  intro i hi
  have hne : b ≠ i := by
    have hle := (List.mem_range'_1.1 hi).1
    omega
  rw [mark, List.getElem?_set_ne hne]

lemma Piece.pendingBlocks_succ (p : Piece) (blockIdx n : Nat) :
    p.pendingBlocks blockIdx (n + 1) = if p.states[blockIdx]? = some .PENDING
      then blockIdx :: p.pendingBlocks (blockIdx + 1) n else p.pendingBlocks (blockIdx + 1) n := by
  rw [pendingBlocks, List.range'_succ, List.filter_cons]
  simp only [decide_eq_true_eq]
  rfl

/-- A loop over the blocks of a piece hands out those that are pending, as far as there is room; the loop over
a new piece relies on all of them being so. -/
theorem Piece.requestLoop_eq {blockIdx : Nat}
    (hnew : skip = false → ∀ i, blockIdx ≤ i → i < blockIdx + n → p.states[i]? = some .PENDING) :
    p.requestLoop lay pieceIdx skip n blockIdx room =
      some (((p.pendingBlocks blockIdx n).take room).map (p.block lay pieceIdx),
        ((p.pendingBlocks blockIdx n).take room).foldl mark p) := by
  induction n generalizing blockIdx room p with
  | zero => simp [requestLoop, pendingBlocks]
  | succ n ih =>
    cases room with
    | zero => simp [requestLoop]
    | succ room =>
      rw [requestLoop, pendingBlocks_succ]
      by_cases hb : p.states[blockIdx]? = some .PENDING
      · rw [if_neg (fun h => h.2 hb), if_pos hb, requestBlockNum_pending pieceIdx hb]
        have hrest := @ih (p.mark blockIdx) room (blockIdx + 1) (by
          intro hs i hi hin
          rw [mark, List.getElem?_set_ne (by omega)]
          exact hnew hs i (by omega) (by omega))
        rw [pendingBlocks_mark (Nat.lt_succ_self blockIdx)] at hrest
        simp only [Option.bind_eq_bind, Option.bind_some, hrest]
        rfl
      · have hs : skip = true := by
          by_contra hs
          exact hb (hnew (by simpa using hs) blockIdx le_rfl (by omega))
        rw [if_pos ⟨hs, hb⟩, if_neg hb]
        exact ih fun h => by simp [hs] at h

/-- What marking pending blocks keeps of a piece. -/
lemma Piece.foldl_mark (P : Piece → Prop) (hmark : ∀ p b, P p → p.states[b]? = some .PENDING → P (p.mark b))
    {bs : List Nat} (hnodup : bs.Nodup) (hbs : ∀ b ∈ bs, p.states[b]? = some .PENDING) (h : P p) :
    P (bs.foldl mark p) := by
  induction bs generalizing p with
  | nil => exact h
  | cons b bs ih =>
    rw [List.nodup_cons] at hnodup
    rw [List.forall_mem_cons] at hbs
    refine ih hnodup.2 ?_ (hmark p b h hbs.1)
    intro i hi
    rw [mark, List.getElem?_set_ne (fun hne : b = i => hnodup.1 (hne ▸ hi))]
    exact hbs.2 i hi

lemma Piece.pendingBlocks_ofIdx (lay : Layout) (pieceIdx : Nat) :
    (Piece.ofIdx lay pieceIdx).pendingBlocks 0 (Piece.ofIdx lay pieceIdx).actualNumBlocks =
      List.range (Piece.ofIdx lay pieceIdx).actualNumBlocks := by
  rw [pendingBlocks, List.filter_eq_self.2, List.range_eq_range']
  intro b hb
  have hlt := (List.mem_range'_1.1 hb).2
  rw [Nat.zero_add] at hlt
  exact decide_eq_true (List.getElem?_replicate_of_lt hlt)

lemma Piece.ofIdx_pending (i : Nat) (hi : i < 0 + (Piece.ofIdx lay pieceIdx).actualNumBlocks) :
    (Piece.ofIdx lay pieceIdx).states[i]? = some .PENDING := by
  rw [Nat.zero_add] at hi
  exact List.getElem?_replicate_of_lt hi

/-- The blocks of a piece that `getPendingBlocks` may hand out, by piece and offset. -/
def PieceManager.askable (lay : Layout) (pm : PieceManager) (pieceIdx : Nat) : List (Nat × Nat) :=
  let blocks := match pm.partialPieces.lookup pieceIdx with
    | some p => p.pendingBlocks 0 p.actualNumBlocks
    | none => if pieceIdx ∈ pm.haves then [] else List.range (Piece.ofIdx lay pieceIdx).actualNumBlocks
  blocks.map (fun b => (pieceIdx, b * lay.blockSize))

namespace PieceManager

open Piece (mark)

variable {pm pm' : PieceManager} {blocks : List PieceBlock}

/-- What holds of the pieces in progress, of new ones, and of those that a pending block is handed out of. -/
structure Lasting (lay : Layout) (haves : Finset Nat) (P : Nat → Piece → Prop) : Prop where
  new : ∀ pieceIdx, pieceIdx ∉ haves → P pieceIdx (Piece.ofIdx lay pieceIdx)
  mark : ∀ pieceIdx p b, P pieceIdx p → p.states[b]? = some .PENDING → P pieceIdx (p.mark b)

/-- The blocks handed out of some pieces, and what lasts. -/
structure Lasts (lay : Layout) (P : Nat → Piece → Prop) (order : List Nat) (pm : PieceManager)
    (blocks : List PieceBlock) (pm' : PieceManager) : Prop where
  pieces : ∀ idx p, pm'.partialPieces.lookup idx = some p → P idx p
  haves : pm'.haves = pm.haves
  blocks : ∀ blk ∈ blocks, blk.pieceIdx ∈ order ∧
    ∃ p b, P blk.pieceIdx p ∧ b < p.actualNumBlocks ∧ blk.blockOffset = b * lay.blockSize

lemma forall_insert {P : Nat → Piece → Prop} {haves : Finset Nat}
    (h : ∀ idx p, pm.partialPieces.lookup idx = some p → P idx p) (hp : P pieceIdx p) :
    ∀ idx q, (PieceManager.mk haves (pm.partialPieces.insert pieceIdx p)).partialPieces.lookup idx = some q →
      P idx q := by
  intro idx q hq
  by_cases hidx : idx = pieceIdx
  · subst hidx
    rw [AList.lookup_insert] at hq
    exact Option.some.inj hq ▸ hp
  · exact h idx q (by rwa [AList.lookup_insert_ne hidx] at hq)

lemma Lasting.requestLoop {P : Nat → Piece → Prop} {haves : Finset Nat} (hP : Lasting lay haves P) {blockIdx : Nat}
    (hp : P pieceIdx p) (hnew : skip = false → ∀ i, blockIdx ≤ i → i < blockIdx + n → p.states[i]? = some .PENDING)
    (hlen : blockIdx + n ≤ p.actualNumBlocks)
    (hrun : p.requestLoop lay pieceIdx skip n blockIdx room = some (blocks, p')) : P pieceIdx p' ∧
      ∀ blk ∈ blocks, blk.pieceIdx = pieceIdx ∧
        ∃ q b, P blk.pieceIdx q ∧ b < q.actualNumBlocks ∧ blk.blockOffset = b * lay.blockSize := by
  rw [Piece.requestLoop_eq hnew] at hrun
  obtain ⟨rfl, rfl⟩ := Prod.mk.inj (Option.some.inj hrun)
  constructor
  · refine Piece.foldl_mark (P pieceIdx) (hP.mark pieceIdx) ?_ ?_ hp
    · exact (List.Nodup.filter _ List.nodup_range').sublist (List.take_sublist ..)
    · intro b hb
      simpa using (List.mem_filter.1 (List.mem_of_mem_take hb)).2
  · intro blk hblk
    obtain ⟨b, hb, rfl⟩ := List.mem_map.1 hblk
    have hlt := (List.mem_range'_1.1 (List.mem_filter.1 (List.mem_of_mem_take hb)).1).2
    exact ⟨rfl, p, b, hp, by omega, rfl⟩

theorem Lasting.getPendingBlocks {P : Nat → Piece → Prop} (hP : Lasting lay pm.haves P) {orders : Orders}
    {peerHaves : Finset Nat} (h : ∀ idx p, pm.partialPieces.lookup idx = some p → P idx p)
    (hrun : getPendingBlocks lay orders pm peerHaves room = some (blocks, pm')) :
    Lasts lay P (orders.pieces ++ orders.haves) pm blocks pm' := by
  have hasks := getPendingBlocks_asks hrun
  clear hrun
  induction hasks with
  | done => exact ⟨h, rfl, by simp⟩
  | @old room pieceIdx pm pm' piece piece' blocks more horder _ hl hloop _ ih =>
    obtain ⟨hp', hout⟩ := hP.requestLoop (h pieceIdx piece hl) (by simp) (Nat.zero_add _).le hloop
    have hlasts := ih hP (forall_insert h hp')
    refine ⟨hlasts.pieces, hlasts.haves, List.forall_mem_append.2 ⟨?_, hlasts.blocks⟩⟩
    intro blk hblk
    exact ⟨List.mem_append_left _ ((hout blk hblk).1 ▸ horder), (hout blk hblk).2⟩
  | @new room pieceIdx pm pm' piece' blocks more horder hhave _ hloop _ ih =>
    obtain ⟨hp', hout⟩ := hP.requestLoop (hP.new pieceIdx hhave) (fun _ i _ hi => Piece.ofIdx_pending i hi)
      (Nat.zero_add _).le hloop
    have hlasts := ih hP (forall_insert h hp')
    refine ⟨hlasts.pieces, hlasts.haves, List.forall_mem_append.2 ⟨?_, hlasts.blocks⟩⟩
    intro blk hblk
    exact ⟨List.mem_append_right _ ((hout blk hblk).1 ▸ horder), (hout blk hblk).2⟩

/-! ## The order of the blocks -/

lemma askable_insert {haves : Finset Nat} {idx : Nat} (h : idx ≠ pieceIdx) (hh : haves = pm.haves) :
    askable lay ⟨haves, pm.partialPieces.insert pieceIdx p⟩ idx = pm.askable lay idx := by
  subst hh
  rw [askable, AList.lookup_insert_ne h, askable]

lemma take_append_sub {α : Type*} (l l' : List α) (room : Nat) :
    (l ++ l').take room = l.take room ++ l'.take (room - (l.take room).length) := by
  rw [List.take_append, List.length_take]
  congr 2
  omega

lemma length_of_map_eq {α β : Type*} {f : α → β} {l : List α} {l' : List β} (h : l.map f = l') :
    l.length = l'.length := by rw [← h, List.length_map]

/-- The pieces in progress that the peer has are asked for in turn, as far as there is room. -/
theorem requestPartial_eq {peerHaves : Finset Nat} {pieces : List Nat} (hnodup : pieces.Nodup)
    (hpieces : ∀ idx ∈ pieces, idx ∈ pm.partialPieces) :
    ∃ blocks pm', requestPartial lay peerHaves pieces room pm = some (blocks, pm') ∧
      blocks.map PieceBlock.key = ((pieces.filter (· ∈ peerHaves)).flatMap (pm.askable lay)).take room ∧
      pm'.haves = pm.haves ∧ (∀ idx, idx ∈ pm'.partialPieces ↔ idx ∈ pm.partialPieces) ∧
      ∀ idx, idx ∉ pieces → pm'.partialPieces.lookup idx = pm.partialPieces.lookup idx := by
  induction pieces generalizing room pm with
  | nil => exact ⟨[], pm, rfl, by simp, rfl, fun _ => Iff.rfl, fun _ _ => rfl⟩
  | cons pieceIdx rest ih =>
    rw [List.nodup_cons] at hnodup
    rw [List.forall_mem_cons] at hpieces
    cases room with
    | zero => exact ⟨[], pm, rfl, by simp, rfl, fun _ => Iff.rfl, fun _ _ => rfl⟩
    | succ room =>
      obtain ⟨piece, hl⟩ := Option.isSome_iff_exists.1 (AList.lookup_isSome.2 hpieces.1)
      by_cases hhave : pieceIdx ∈ peerHaves
      · have hloop := @Piece.requestLoop_eq lay piece pieceIdx piece.actualNumBlocks (room + 1) true 0 (by simp)
        set out := (((piece.pendingBlocks 0 piece.actualNumBlocks).take (room + 1)).map (piece.block lay pieceIdx))
          with hout
        set piece' := ((piece.pendingBlocks 0 piece.actualNumBlocks).take (room + 1)).foldl mark piece
        have hkeys : out.map PieceBlock.key = (pm.askable lay pieceIdx).take (room + 1) := by
          rw [hout, List.map_map, askable, hl, ← List.map_take]
          rfl
        have hlen := length_of_map_eq hkeys
        obtain ⟨more, pm₂, hrest, hmore, hhaves, hmem, hsame⟩ :=
          @ih (room + 1 - out.length) { pm with partialPieces := pm.partialPieces.insert pieceIdx piece' } hnodup.2
            fun idx hidx => (AList.mem_insert _).2 (Or.inr (hpieces.2 idx hidx))
        refine ⟨out ++ more, pm₂, by simp [requestPartial, hl, hhave, hloop, hrest], ?_, hhaves, ?_, ?_⟩
        · rw [List.map_append, hmore, hlen, hkeys, List.filter_cons_of_pos (by simpa using hhave), List.flatMap_cons,
            take_append_sub]
          congr 2
          apply List.flatMap_congr
          intro idx hidx
          refine askable_insert ?_ rfl
          rintro rfl
          exact hnodup.1 (List.mem_filter.1 hidx).1
        · intro idx
          rw [hmem, AList.mem_insert]
          exact ⟨fun h => h.elim (fun heq => heq ▸ hpieces.1) id, Or.inr⟩
        · intro idx hidx
          rw [List.mem_cons, not_or] at hidx
          rw [hsame idx hidx.2]
          exact AList.lookup_insert_ne hidx.1
      · obtain ⟨blocks, pm', hrun, hkeys, hhaves, hmem, hsame⟩ := @ih (room + 1) pm hnodup.2 hpieces.2
        refine ⟨blocks, pm', by simp [requestPartial, hl, hhave, hrun], ?_, hhaves, hmem, ?_⟩
        · rw [hkeys, List.filter_cons_of_neg (by simpa using hhave)]
        · intro idx hidx
          exact hsame idx fun h => hidx (List.mem_cons_of_mem _ h)

/-- The new pieces follow, all of their blocks. -/
theorem requestNew_eq {pieces : List Nat} (hnodup : pieces.Nodup) :
    ∃ blocks pm', requestNew lay pieces room pm = some (blocks, pm') ∧
      blocks.map PieceBlock.key =
        ((pieces.filter (· ∉ pm.partialPieces)).flatMap (pm.askable lay)).take room := by
  induction pieces generalizing room pm with
  | nil => exact ⟨[], pm, rfl, by simp⟩
  | cons pieceIdx rest ih =>
    rw [List.nodup_cons] at hnodup
    cases room with
    | zero => exact ⟨[], pm, rfl, by simp⟩
    | succ room =>
      by_cases hin : pieceIdx ∈ pm.partialPieces
      · obtain ⟨blocks, pm', hrun, hkeys⟩ := @ih (room + 1) pm hnodup.2
        refine ⟨blocks, pm', by simp [requestNew, hin, hrun], ?_⟩
        rw [hkeys, List.filter_cons_of_neg (by simpa using hin)]
      · have hl : pm.partialPieces.lookup pieceIdx = none := AList.lookup_eq_none.2 hin
        by_cases hhave : pieceIdx ∈ pm.haves
        · obtain ⟨blocks, pm', hrun, hkeys⟩ := @ih (room + 1) pm hnodup.2
          refine ⟨blocks, pm', by simp [requestNew, hhave, hrun], ?_⟩
          have hnone : pm.askable lay pieceIdx = [] := by simp [askable, hl, hhave]
          rw [hkeys, List.filter_cons_of_pos (by simpa using hin), List.flatMap_cons, hnone, List.nil_append]
        · have hloop := @Piece.requestLoop_eq lay (Piece.ofIdx lay pieceIdx) pieceIdx
            (Piece.ofIdx lay pieceIdx).actualNumBlocks (room + 1) false 0 fun _ i _ hi => Piece.ofIdx_pending i hi
          rw [Piece.pendingBlocks_ofIdx] at hloop
          set piece := Piece.ofIdx lay pieceIdx with hpiece
          set out := ((List.range piece.actualNumBlocks).take (room + 1)).map (piece.block lay pieceIdx) with hout
          set piece' := ((List.range piece.actualNumBlocks).take (room + 1)).foldl mark piece
          have hkeys : out.map PieceBlock.key = (pm.askable lay pieceIdx).take (room + 1) := by
            simp only [hout, List.map_map, askable, hl, ← List.map_take, if_neg hhave]
            rfl
          have hlen := length_of_map_eq hkeys
          obtain ⟨more, pm₂, hrest, hmore⟩ := @ih (room + 1 - out.length)
            { pm with partialPieces := pm.partialPieces.insert pieceIdx piece' } hnodup.2
          refine ⟨out ++ more, pm₂, by simp [requestNew, hin, hhave, ← hpiece, hloop, hrest], ?_⟩
          rw [List.map_append, hmore, hlen, hkeys, List.filter_cons_of_pos (by simpa using hin), List.flatMap_cons,
            take_append_sub]
          have hne : ∀ idx ∈ rest, idx ≠ pieceIdx := by
            rintro idx hidx rfl
            exact hnodup.1 hidx
          congr 2
          rw [List.filter_congr (q := fun idx => decide (idx ∉ pm.partialPieces)) fun idx hidx => by
            simp [AList.mem_insert, hne idx hidx]]
          apply List.flatMap_congr
          intro idx hidx
          exact askable_insert (hne idx (List.mem_filter.1 hidx).1) rfl

/-- The two containers are iterated in some order. -/
structure Orders.Valid (orders : Orders) (pm : PieceManager) (peerHaves : Finset Nat) : Prop where
  pieces : orders.pieces.Nodup
  mem_pieces : ∀ idx, idx ∈ orders.pieces ↔ idx ∈ pm.partialPieces
  haves : orders.haves.Nodup
  mem_haves : ∀ idx, idx ∈ orders.haves ↔ idx ∈ peerHaves

/-- Which blocks are handed out, and in which order: those of the pieces in progress first. -/
theorem getPendingBlocks_eq {orders : Orders} {peerHaves : Finset Nat} (h : orders.Valid pm peerHaves) :
    ∃ blocks pm', getPendingBlocks lay orders pm peerHaves room = some (blocks, pm') ∧
      blocks.map PieceBlock.key = ((orders.pieces.filter (· ∈ peerHaves) ++
        orders.haves.filter (· ∉ pm.partialPieces)).flatMap (pm.askable lay)).take room := by
  obtain ⟨first, pm₁, hfirst, hkeys, hhaves, hmem, hsame⟩ := @requestPartial_eq lay room pm peerHaves orders.pieces
    h.pieces fun idx hidx => (h.mem_pieces idx).1 hidx
  obtain ⟨second, pm₂, hsecond, hkeys'⟩ := @requestNew_eq lay (room - first.length) pm₁ orders.haves h.haves
  refine ⟨first ++ second, pm₂, by simp [getPendingBlocks, hfirst, hsecond], ?_⟩
  have hlen := length_of_map_eq hkeys
  rw [List.map_append, hkeys', hlen, hkeys, List.flatMap_append, take_append_sub]
  congr 2
  rw [List.filter_congr (q := fun idx => decide (idx ∉ pm.partialPieces)) fun idx _ => by simp only [hmem]]
  apply List.flatMap_congr
  intro idx hidx
  have hout : idx ∉ orders.pieces := by
    rw [h.mem_pieces]
    simpa using (List.mem_filter.1 hidx).2
  rw [askable, askable, hsame idx hout, hhaves]

end PieceManager

/-! ## The bytes of a piece -/

/-- How many bytes of a payload `writeBlock` copies. -/
def Layout.blockLength (lay : Layout) (k : Nat × Nat) : Nat := min lay.blockSize (lay.actualPieceSize k.1 - k.2)

/-- The bytes that a payload brings for a block. -/
def blockBytes (lay : Layout) (k : Nat × Nat) (payload beyond : Bytes) : Bytes :=
  ((payload ++ beyond).drop 8).take (lay.blockLength k)

/-- The bytes that `writeBlock` reads are there. -/
def Readable (lay : Layout) (k : Nat × Nat) (payload beyond : Bytes) : Prop :=
  8 + lay.blockLength k ≤ (payload ++ beyond).length

variable {data : Nat × Nat → Bytes} {k : Nat × Nat} {payload beyond : Bytes}

/-- A piece in progress holds what was received last for each block that it counts as done. -/
structure Piece.Holds (lay : Layout) (pieceIdx : Nat) (data : Nat × Nat → Bytes) (p : Piece) : Prop where
  size : p.actualPieceSize = lay.actualPieceSize pieceIdx
  blocks : p.actualNumBlocks = lay.blocksOf pieceIdx
  buffer : p.buffer.length = lay.pieceSize
  done : ∀ b, p.states[b]? = some .DONE →
    tile (p.buffer.take p.actualPieceSize) lay.blockSize b = data (pieceIdx, b * lay.blockSize)

namespace Piece

lemma ofIdx_holds (h : lay.FewBlocks) (pieceIdx : Nat) (data : Nat × Nat → Bytes) :
    (Piece.ofIdx lay pieceIdx).Holds lay pieceIdx data where
  size := by simp only [ofIdx]
  blocks := ofIdx_actualNumBlocks h pieceIdx
  buffer := by simp only [ofIdx, length_zeros]
  done := by
    intro b hb
    simp [ofIdx, List.getElem?_replicate] at hb

/-- A block that is not done says nothing about the bytes. -/
lemma Holds.set {s : State} (h : p.Holds lay pieceIdx data) (hs : s ≠ .DONE) (p' : Piece)
    (hstates : p'.states = p.states.set b s) (hsize : p'.actualPieceSize = p.actualPieceSize)
    (hnum : p'.actualNumBlocks = p.actualNumBlocks) (hbuffer : p'.buffer = p.buffer) :
    p'.Holds lay pieceIdx data where
  size := hsize.trans h.size
  blocks := hnum.trans h.blocks
  buffer := by rw [hbuffer, h.buffer]
  done := by
    intro i hi
    rw [hstates] at hi
    by_cases hbi : b = i
    · subst hbi
      have hlt := (List.getElem?_eq_some_iff.1 hi).1
      rw [List.length_set] at hlt
      rw [List.getElem?_set_self hlt] at hi
      exact absurd (Option.some.inj hi) hs
    · rw [List.getElem?_set_ne hbi] at hi
      rw [hbuffer, hsize]
      exact h.done i hi

lemma Holds.congr {data' : Nat × Nat → Bytes} (h : p.Holds lay pieceIdx data)
    (hdata : ∀ o, data' (pieceIdx, o) = data (pieceIdx, o)) : p.Holds lay pieceIdx data' :=
  ⟨h.size, h.blocks, h.buffer, fun b hb => by rw [h.done b hb, hdata]⟩

lemma take_memcpyAt {buffer part : Bytes} {offset size : Nat} (h : offset + part.length ≤ size)
    (hsize : size ≤ buffer.length) : (memcpyAt buffer offset part).take size =
      writeAt 0 (buffer.take size) offset part := by
  have hlen : (buffer.take size).length = size := List.length_take_of_le hsize
  have hzero : offset - (buffer.take size).length = 0 := by omega
  have hfront : (buffer.take offset).length = offset := List.length_take_of_le (by omega)
  rw [writeAt, hzero, List.replicate_zero, List.append_nil, List.take_take, Nat.min_eq_left (by omega), memcpyAt,
    List.take_append, List.length_append, hfront, List.take_of_length_le (by rw [List.length_append]; omega),
    List.drop_take]

/-- A received block is put where it belongs. -/
theorem Holds.writeBlock (h : p.Holds lay pieceIdx data) (hok : p.Ok) (hb : p.states[b]? = some .REQUESTED)
    (hread : Readable lay (pieceIdx, b * lay.blockSize) payload beyond) :
    ∃ p', p.writeBlock lay (b * lay.blockSize) payload beyond = some p' ∧ p'.Ok ∧ p'.states = p.states.set b .DONE ∧
      p'.Holds lay pieceIdx (Function.update data (pieceIdx, b * lay.blockSize)
        (blockBytes lay (pieceIdx, b * lay.blockSize) payload beyond)) := by
  have hpos := lay.blockSize_pos
  have hdiv : b * lay.blockSize / lay.blockSize = b := Nat.mul_div_cancel _ hpos
  have hlt : b < p.states.length := (List.getElem?_eq_some_iff.1 hb).1
  have hin : b * lay.blockSize < lay.actualPieceSize pieceIdx := by
    apply Layout.block_lt
    rw [← h.blocks, ← hok.length]
    exact hlt
  have hle := lay.actualPieceSize_le pieceIdx
  set bytes := blockBytes lay (pieceIdx, b * lay.blockSize) payload beyond with hbytes
  have hlen : bytes.length = min lay.blockSize (lay.actualPieceSize pieceIdx - b * lay.blockSize) := by
    rw [hbytes, blockBytes, List.length_take_of_le, Layout.blockLength]
    rw [Readable] at hread
    rw [List.length_drop]
    omega
  let p' : Piece := { p with
    buffer := memcpyAt p.buffer (b * lay.blockSize) bytes
    states := p.states.set b .DONE
    requestedBlocks := decr16 p.requestedBlocks
    completedBlocks := incr16 p.completedBlocks }
  have hrun : p.writeBlock lay (b * lay.blockSize) payload beyond = some p' := by
    simp only [Piece.writeBlock, h.size, hdiv, if_neg (not_le.2 hin), if_neg (not_le.2 hlt), p', hbytes, blockBytes,
      Layout.blockLength]
  refine ⟨p', hrun, hok.move hb p' (by decide) rfl rfl (by simp [p']) (by simp [p']), rfl, h.size, h.blocks, ?_, ?_⟩
  · change (memcpyAt p.buffer (b * lay.blockSize) bytes).length = _
    have hbuffer := h.buffer
    simp only [memcpyAt, List.length_append, List.length_take, List.length_drop]
    omega
  · intro i hi
    have hbuffer := h.buffer
    have hfront : (p.buffer.take (lay.actualPieceSize pieceIdx)).length = lay.actualPieceSize pieceIdx :=
      List.length_take_of_le (by omega)
    have htile : bytes.length = (tile (p.buffer.take (lay.actualPieceSize pieceIdx)) lay.blockSize b).length := by
      have hsucc : (b + 1) * lay.blockSize = b * lay.blockSize + lay.blockSize := by ring
      rw [hlen, length_tile, hfront, hsucc]
      omega
    change tile ((memcpyAt p.buffer (b * lay.blockSize) bytes).take p.actualPieceSize) lay.blockSize i = _
    rw [h.size, take_memcpyAt (by omega) (by omega), tile_writeAt 0 (by omega) htile]
    change (p.states.set b .DONE)[i]? = some .DONE at hi
    by_cases hbi : i = b
    · rw [if_pos hbi, hbi, Function.update_self]
    · rw [if_neg hbi]
      rw [List.getElem?_set_ne (Ne.symm hbi)] at hi
      have hne : ((pieceIdx, i * lay.blockSize) : Nat × Nat) ≠ (pieceIdx, b * lay.blockSize) := by
        intro heq
        exact hbi (Nat.eq_of_mul_eq_mul_right hpos (Prod.mk.inj heq).2)
      rw [Function.update_of_ne hne, ← h.done i hi, h.size]

end Piece

end CppExperiments.Torrent
