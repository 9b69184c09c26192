import CppExperiments.Lib.Runs
import CppExperiments.Torrent.Blocks
import CppExperiments.Torrent.Bookkeeping

/-!
# Bounds

How far a handler reads into its payload, where the blocks asked for lie in their pieces, and whether a block is refused
that was asked for. Nothing checks the index of a piece that a peer claims to have, nor how long a payload is; on runs
in which the peers keep to what the torrent has, all bounds are kept.
-/

namespace CppExperiments.Torrent

open PieceManager (Orders)

variable {lay : Layout} {p p' : Piece} {pm pm' pm'' : PieceManager} {pieceIdx idx b n room blockIdx : Nat} {skip : Bool}
  {blocks : List PieceBlock} {blk : PieceBlock} {k : Nat × Nat}

/-! ## Sizes -/

/-- How long a piece is. -/
def Layout.lengthOf (lay : Layout) (pieceIdx : Nat) :
    Nat := min lay.pieceSize (lay.totalSize - pieceIdx * lay.pieceSize)

/-- There is a hash for every piece, and the blocks of a piece can be counted in 16 bits unless all of them are full. -/
structure Layout.Regular (lay : Layout) : Prop where
  hashes : ∀ idx < lay.numPieces, idx * 20 ≤ lay.pieceBlob.length
  blocks : ∀ idx < lay.numPieces, lay.blocksOf idx ≤ 65535 ∨ lay.actualPieceSize idx % lay.blockSize = 0

/-- A block of a piece that the torrent has, with the size that it is asked for. -/
def Layout.HasBlock (lay : Layout) (k : Nat × Nat) (size : Nat) : Prop :=
  k.1 < lay.numPieces ∧ ∃ b, Requests lay k.1 b size ∧ k.2 = b * lay.blockSize

namespace Layout

lemma actualPieceSize_le_lengthOf (h : idx < lay.numPieces) : lay.actualPieceSize idx ≤ lay.lengthOf idx := by
  have hpos := lay.pieceSize_pos
  have hsmall : lay.numPieces < 2 ^ 32 := lt_of_le_of_lt (Nat.div_le_self _ _) (Nat.mod_lt _ (by decide))
  have hwrap : (lay.numPieces + (2 ^ 32 - 1)) % 2 ^ 32 = lay.numPieces - 1 := by omega
  have hall : lay.numPieces * lay.pieceSize ≤ lay.totalSize + lay.pieceSize - 1 :=
    (Nat.div_mul_le_self _ _).trans (Nat.mod_le _ _)
  have hle := lay.actualPieceSize_le idx
  refine le_min hle ?_
  have hmul : (idx + 1) * lay.pieceSize ≤ lay.numPieces * lay.pieceSize := Nat.mul_le_mul_right _ h
  rw [Nat.succ_mul] at hmul
  have hmod : lay.totalSize % lay.pieceSize = (lay.totalSize - idx * lay.pieceSize) % lay.pieceSize := by
    rw [← Nat.add_mul_mod_self_right (lay.totalSize - _) idx, Nat.sub_add_cancel (by omega)]
  rw [actualPieceSize, hwrap]
  by_cases hmore : idx < lay.numPieces - 1
  · have hnext : (idx + 1 + 1) * lay.pieceSize ≤ lay.numPieces * lay.pieceSize := Nat.mul_le_mul_right _ (by omega)
    rw [Nat.succ_mul, Nat.succ_mul] at hnext
    rw [if_pos (Or.inl hmore)]
    omega
  · by_cases hfull : lay.totalSize % lay.pieceSize = 0
    · rw [if_pos (Or.inr hfull)]
      rw [hmod] at hfull
      exact Nat.le_of_dvd (by omega) (Nat.dvd_of_mod_eq_zero hfull)
    · rw [if_neg (by omega), hmod]
      exact Nat.mod_le _ _

/-- A block begins within its piece, and its size is what is left of the piece, or a full block. -/
lemma Regular.requests (h : lay.Regular) (hidx : idx < lay.numPieces) {size : Nat} (hreq : Requests lay idx b size) :
    b * lay.blockSize < lay.actualPieceSize idx ∧ size = lay.blockLength (idx, b * lay.blockSize) := by
  have hsucc : (b + 1) * lay.blockSize = b * lay.blockSize + lay.blockSize := by ring
  have hpos := lay.blockSize_pos
  rw [blockLength]
  rcases h.blocks idx hidx with hfew | hfull
  · obtain ⟨hb, hend⟩ := requests_end hfew hreq
    have hlt := Layout.block_lt hb
    refine ⟨hlt, ?_⟩
    simp only []
    omega
  · obtain ⟨hb, rfl⟩ := requests_iff.1 hreq
    have hcount : (Piece.ofIdx lay idx).actualNumBlocks ≤ lay.actualPieceSize idx / lay.blockSize := by
      have hle : (Piece.ofIdx lay idx).actualNumBlocks ≤
        (lay.actualPieceSize idx + lay.blockSize - 1) / lay.blockSize := by
        simp only [Piece.ofIdx]
        exact (Nat.mod_le _ _).trans (Nat.div_le_div_right (Nat.mod_le _ _))
      refine hle.trans ?_
      rw [← Nat.ceilDiv_eq_add_pred_div, ceilDiv_le_iff_le_mul hpos, Nat.mul_div_cancel' (Nat.dvd_of_mod_eq_zero hfull)]
    have hend : (b + 1) * lay.blockSize ≤ lay.actualPieceSize idx :=
      (Nat.le_div_iff_mul_le hpos).1 (hb.trans_le hcount)
    refine ⟨by omega, ?_⟩
    rw [block_blockSize, if_pos hfull, ite_self]
    simp only []
    omega

end Layout

/-! ## The pieces in progress -/

/-- What of a piece stays as it was made. -/
def Piece.shape (p : Piece) : Nat × Nat × Nat := (p.actualPieceSize, p.lastBlockSize, p.actualNumBlocks)

lemma Piece.block_congr (h : p.shape = p'.shape) (pieceIdx b : Nat) :
    p.block lay pieceIdx b = p'.block lay pieceIdx b := by
  obtain ⟨-, hlast, hnum⟩ : p.actualPieceSize = p'.actualPieceSize ∧ p.lastBlockSize = p'.lastBlockSize ∧
    p.actualNumBlocks = p'.actualNumBlocks := by simpa [shape] using h
  rw [block, block, hlast, hnum]

/-- The blocks handed out of a piece are its own, and its shape stays. -/
lemma Piece.requestLoop_shape
    (hnew : skip = false → ∀ i, blockIdx ≤ i → i < blockIdx + n → p.states[i]? = some .PENDING)
    (hrun : p.requestLoop lay pieceIdx skip n blockIdx room = some (blocks, p')) :
    p'.shape = p.shape ∧ ∀ blk ∈ blocks, ∃ b < blockIdx + n, blk = p.block lay pieceIdx b := by
  rw [Piece.requestLoop_eq hnew] at hrun
  obtain ⟨rfl, rfl⟩ := Prod.mk.inj (Option.some.inj hrun)
  constructor
  · refine Piece.foldl_mark (fun q => q.shape = p.shape) (fun _ _ h _ => h) ?_ ?_ rfl
    · exact (List.Nodup.filter _ List.nodup_range').sublist (List.take_sublist ..)
    · intro b hb
      simpa using (List.mem_filter.1 (List.mem_of_mem_take hb)).2
  · intro blk hblk
    obtain ⟨b, hb, rfl⟩ := List.mem_map.1 hblk
    exact ⟨b, (List.mem_range'_1.1 (List.mem_filter.1 (List.mem_of_mem_take hb)).1).2, rfl⟩

namespace PieceManager

/-- The pieces in progress are pieces of the torrent. -/
def InRange (lay : Layout) (pm : PieceManager) : Prop :=
  ∀ idx p, pm.partialPieces.lookup idx = some p → idx < lay.numPieces ∧ p.shape = (Piece.ofIdx lay idx).shape

lemma InRange.actualPieceSize (h : pm.InRange lay) (hl : pm.partialPieces.lookup idx = some p) :
    p.actualPieceSize = lay.actualPieceSize idx := by
  rw [show p.actualPieceSize = p.shape.1 from rfl, (h idx p hl).2]
  simp only [Piece.shape, Piece.ofIdx]

/-- What is in progress was so before, in the same shape. -/
def Descends (pm pm' : PieceManager) : Prop :=
  ∀ idx p', pm'.partialPieces.lookup idx = some p' → ∃ p, pm.partialPieces.lookup idx = some p ∧ p'.shape = p.shape

lemma InRange.descends (h : pm.InRange lay) (hd : pm.Descends pm') : pm'.InRange lay := by
  intro idx p' hl
  obtain ⟨p, hl, hshape⟩ := hd idx p' hl
  exact ⟨(h idx p hl).1, hshape.trans (h idx p hl).2⟩

lemma Descends.refl (pm : PieceManager) : pm.Descends pm := fun _ p hl => ⟨p, hl, rfl⟩

lemma Descends.trans (h : pm.Descends pm') (h' : pm'.Descends pm'') : pm.Descends pm'' := by
  intro idx p'' hl
  obtain ⟨p', hl, hshape'⟩ := h' idx p'' hl
  obtain ⟨p, hl, hshape⟩ := h idx p' hl
  exact ⟨p, hl, hshape'.trans hshape⟩

lemma descends_erase (pieceIdx : Nat) (haves : Finset Nat) : pm.Descends ⟨haves, pm.partialPieces.erase pieceIdx⟩ := by
  intro idx p' hl
  by_cases hidx : idx = pieceIdx
  · subst hidx
    simp at hl
  · exact ⟨p', by rwa [AList.lookup_erase_ne hidx] at hl, rfl⟩

lemma descends_insert (hl : pm.partialPieces.lookup pieceIdx = some p) (hshape : p'.shape = p.shape)
    (haves : Finset Nat) : pm.Descends ⟨haves, pm.partialPieces.insert pieceIdx p'⟩ := by
  intro idx q hq
  by_cases hidx : idx = pieceIdx
  · subst hidx
    rw [AList.lookup_insert] at hq
    exact ⟨p, hl, Option.some.inj hq ▸ hshape⟩
  · exact ⟨q, by rwa [AList.lookup_insert_ne hidx] at hq, rfl⟩

lemma clearInTransitBlock_descends {blockOffset : Nat}
    (hrun : pm.clearInTransitBlock lay pieceIdx blockOffset = some pm') : pm.Descends pm' := by
  obtain ⟨piece, hl, hrun⟩ := Option.bind_eq_some_iff.1 hrun
  split at hrun
  · cases hrun
  · simp only [] at hrun
    split at hrun
    · obtain rfl := Option.some.inj hrun
      exact descends_erase pieceIdx _
    · obtain rfl := Option.some.inj hrun
      exact descends_insert hl (by simp only [Piece.shape]) _

lemma onPeerReset_descends {keys : List (Nat × Nat)} (hrun : onPeerReset lay keys pm = some pm') : pm.Descends pm' := by
  induction keys generalizing pm with
  | nil =>
    obtain rfl := Option.some.inj hrun
    exact .refl pm
  | cons k rest ih =>
    obtain ⟨pm₁, hclear, hrun⟩ := Option.bind_eq_some_iff.1 hrun
    exact (clearInTransitBlock_descends hclear).trans (ih hrun)

lemma writeBlock_shape {blockOffset : Nat} {payload beyond : Bytes}
    (hrun : p.writeBlock lay blockOffset payload beyond = some p') : p'.shape = p.shape := by
  unfold Piece.writeBlock at hrun
  split at hrun
  · cases hrun
  · split at hrun
    · cases hrun
    · obtain rfl := Option.some.inj hrun
      rfl

lemma onBlockReceived_descends {blockOffset : Nat} {payload beyond : Bytes} {ready : Option Bytes}
    (hrun : pm.onBlockReceived lay pieceIdx blockOffset payload beyond = some (ready, pm')) : pm.Descends pm' := by
  obtain ⟨piece, hl, hrun⟩ := Option.bind_eq_some_iff.1 hrun
  obtain ⟨piece', hwrite, hrun⟩ := Option.bind_eq_some_iff.1 hrun
  split at hrun
  · obtain ⟨ready', -, hrun⟩ := Option.bind_eq_some_iff.1 hrun
    obtain ⟨-, rfl⟩ := Prod.mk.inj (Option.some.inj hrun)
    exact descends_erase pieceIdx _
  · obtain ⟨-, rfl⟩ := Prod.mk.inj (Option.some.inj hrun)
    exact descends_insert hl (writeBlock_shape hwrite) _

lemma InRange.insert (h : pm.InRange lay) (hidx : pieceIdx < lay.numPieces)
    (hshape : p.shape = (Piece.ofIdx lay pieceIdx).shape) :
    InRange lay { pm with partialPieces := pm.partialPieces.insert pieceIdx p } :=
  forall_insert h ⟨hidx, hshape⟩

/-- Blocks are handed out of pieces in progress and of pieces that the peer claims to have. -/
lemma Asks.inRange {orders : Orders} {peerHaves : Finset Nat} (hasks : Asks lay orders peerHaves room pm blocks pm')
    (horders : ∀ idx ∈ orders.haves, idx < lay.numPieces) (h : pm.InRange lay) :
    pm'.InRange lay ∧ ∀ blk ∈ blocks, lay.HasBlock blk.key blk.blockSize := by
  have hown : ∀ idx (q : Piece) (out : List PieceBlock), idx < lay.numPieces → q.shape = (Piece.ofIdx lay idx).shape →
      (∀ blk ∈ out, ∃ b < 0 + q.actualNumBlocks, blk = q.block lay idx b) →
      ∀ blk ∈ out, lay.HasBlock blk.key blk.blockSize := by
    intro idx q out hidx hshape hout blk hblk
    obtain ⟨b, hb, rfl⟩ := hout blk hblk
    have hnum : q.actualNumBlocks = (Piece.ofIdx lay idx).actualNumBlocks := congrArg (fun t => t.2.2) hshape
    rw [Nat.zero_add, hnum] at hb
    rw [Piece.block_congr hshape]
    exact ⟨hidx, b, (requests_iff.2 ⟨hb, rfl⟩ : Requests lay idx b _), rfl⟩
  induction hasks with
  | done => exact ⟨h, by simp⟩
  | @old room pieceIdx pm pm' piece piece' blocks more _ _ hl hloop _ ih =>
    obtain ⟨hidx, hshape⟩ := h pieceIdx piece hl
    obtain ⟨hshape', hout⟩ := Piece.requestLoop_shape (by simp) hloop
    obtain ⟨hrange, hmore⟩ := ih (h.insert hidx (hshape'.trans hshape))
    exact ⟨hrange, List.forall_mem_append.2 ⟨hown pieceIdx piece blocks hidx hshape hout, hmore⟩⟩
  | @new room pieceIdx pm pm' piece' blocks more horder _ _ hloop _ ih =>
    have hidx := horders pieceIdx horder
    obtain ⟨hshape, hout⟩ := Piece.requestLoop_shape (fun _ i _ hi => Piece.ofIdx_pending i hi) hloop
    obtain ⟨hrange, hmore⟩ := ih (h.insert hidx hshape)
    exact ⟨hrange, List.forall_mem_append.2 ⟨hown pieceIdx _ blocks hidx rfl hout, hmore⟩⟩

/-- A block that is requested is not refused. -/
theorem onBlockReceived_isSome (hreg : lay.Regular) (h : pm.InRange lay) (hok : pm.Ok) (hk : k ∈ pm.requested lay)
    (payload beyond : Bytes) : (pm.onBlockReceived lay k.1 k.2 payload beyond).isSome := by
  have ⟨piece, hl, _⟩ := hk
  obtain ⟨hb, ho⟩ := state_of_requested hl hk
  obtain ⟨hidx, hshape⟩ := h k.1 piece hl
  have hlt := (List.getElem?_eq_some_iff.1 hb).1
  have hsize := h.actualPieceSize hl
  have hnum : piece.actualNumBlocks = (Piece.ofIdx lay k.1).actualNumBlocks := congrArg (fun t => t.2.2) hshape
  have hin := (hreg.requests hidx (requests_iff.2 ⟨by rwa [← hnum, ← (hok k.1 piece hl).length], rfl⟩)).1
  rw [ho, ← hsize] at hin
  obtain ⟨piece', hwrite⟩ : ∃ piece', piece.writeBlock lay k.2 payload beyond = some piece' := by
    rw [Piece.writeBlock, if_neg (not_le.2 hin), if_neg (not_le.2 hlt)]
    exact ⟨_, rfl⟩
  have hhash : ∃ hash, getPieceHash lay k.1 = some hash := by
    rw [getPieceHash, if_neg (not_le.2 hidx), if_neg (not_lt.2 (hreg.hashes k.1 hidx))]
    exact ⟨_, rfl⟩
  obtain ⟨hash, hhash⟩ := hhash
  simp only [onBlockReceived, hl, hwrite, checkPiece, hhash, Option.bind_eq_bind, Option.bind_some]
  split
  · rfl
  · rfl

end PieceManager

/-! ## Events -/

variable {cfg : Config} {w w' : World} {id : PeerID} {ctx ctx' : PeerContext} {dl dl' : Downloader}
  {held : PeerID → Set (Nat × Nat)} {msgType : MsgType} {message beyond : Bytes} {orders : Orders} {events : List Event}

/-- How far a handler reads into its payload. -/
def reads (cfg : Config) (msgType : MsgType) (message beyond : Bytes) (ctx : PeerContext) (dl : Downloader) : Nat :=
  match msgType with
  | .Have => 4
  | .Bitfield => message.length
  | .Piece =>
    match answered message beyond ctx, dl.pieceManager.partialPieces.lookup (field message beyond 0) with
    | some blockSize, some piece =>
      if validBlock message blockSize then
        8 + min cfg.layout.blockSize (piece.actualPieceSize - field message beyond 4)
      else 8
    | _, _ => 8
  | .Choke | .Unchoke | .Other _ | .Unknown => 0

/-- The handler of a message stays within the payload, the block it brings is not refused, and the blocks asked for
after it are blocks of the torrent. -/
structure WithinBounds (cfg : Config) (msgType : MsgType) (message beyond : Bytes) (orders : Orders) (ctx : PeerContext)
    (dl : Downloader) : Prop where
  reads : reads cfg msgType message beyond ctx dl ≤ message.length
  accepts : msgType = .Piece → ∀ blockSize ∈ answered message beyond ctx, validBlock message blockSize = true →
    (dl.pieceManager.onBlockReceived cfg.layout (field message beyond 0) (field message beyond 4) message beyond).isSome
  asks : ∀ r ∈ handleMessage cfg msgType message beyond ctx dl,
    ∀ q ∈ r.2.pieceManager.getPendingBlocks cfg.layout orders r.1.haves (cfg.MAX_BACKLOG - r.1.backlog),
    ∀ blk ∈ q.1, blk.pieceIdx < cfg.layout.numPieces ∧
      blk.blockOffset + blk.blockSize ≤ cfg.layout.lengthOf blk.pieceIdx

/-- A property of the message that an event takes from the buffer of a peer. -/
def OnMessage (P : MsgType → Bytes → Bytes → Orders → PeerContext → Downloader → Prop) (w : World) : Event → Prop
  | .message fd beyond orders => ∀ p ∈ w.peer fd, ∀ m ∈ nextMessage p.2 beyond.1,
      P m.1 m.2.1 beyond.2 orders p.2 w.downloader
  | .receive _ _ _ | .sent _ _ | .failure _ | .sweep _ _ _ => True

/-- A `Have` names a piece of the torrent, a bit field sets no bit behind the last piece, and a `Piece` has its two
fields. -/
def Honest (cfg : Config) (msgType : MsgType) (message : Bytes) : Prop :=
  (msgType = .Have → 4 ≤ message.length ∧ field message [] 0 < cfg.layout.numPieces) ∧
  (msgType = .Bitfield → message.length = (cfg.numPieces + 7) / 8 →
    ∀ idx ∈ readBitField message, idx < cfg.layout.numPieces) ∧
  (msgType = .Piece → 8 ≤ message.length)

/-- What is iterated over as the pieces of the peer are pieces of the peer. -/
def Iterates (cfg : Config) (msgType : MsgType) (message beyond : Bytes) (orders : Orders) (ctx : PeerContext)
    (dl : Downloader) : Prop :=
  ∀ r ∈ handleMessage cfg msgType message beyond ctx dl, ∀ idx ∈ orders.haves, idx ∈ r.1.haves

instance (cfg : Config) (msgType : MsgType) (message beyond : Bytes) (orders : Orders) (ctx : PeerContext)
    (dl : Downloader) : Decidable (WithinBounds cfg msgType message beyond orders ctx dl) :=
  decidable_of_iff (_ ∧ (_ → ∀ blockSize ∈ answered message beyond ctx, _ = true → _ = true) ∧
      ∀ r ∈ handleMessage cfg msgType message beyond ctx dl,
        ∀ q ∈ r.2.pieceManager.getPendingBlocks cfg.layout orders r.1.haves (cfg.MAX_BACKLOG - r.1.backlog),
        ∀ blk ∈ q.1, _ ∧ _)
    ⟨fun h => ⟨h.1, h.2.1, h.2.2⟩, fun h => ⟨h.reads, h.accepts, h.asks⟩⟩

instance (cfg : Config) (msgType : MsgType) (message : Bytes) : Decidable (Honest cfg msgType message) :=
  inferInstanceAs (Decidable ((_ → _ ∧ _) ∧ (_ → _ → ∀ idx ∈ _, _) ∧ (_ → _)))

instance (cfg : Config) (msgType : MsgType) (message beyond : Bytes) (orders : Orders) (ctx : PeerContext)
    (dl : Downloader) : Decidable (Iterates cfg msgType message beyond orders ctx dl) :=
  inferInstanceAs (Decidable (∀ r ∈ handleMessage cfg msgType message beyond ctx dl, ∀ idx ∈ _, _ ∈ r.1.haves))

instance {P : MsgType → Bytes → Bytes → Orders → PeerContext → Downloader → Prop}
    [∀ msgType message beyond orders ctx dl, Decidable (P msgType message beyond orders ctx dl)] (w : World) :
    ∀ e, Decidable (OnMessage P w e)
  | .message fd beyond orders => inferInstanceAs (Decidable (∀ p ∈ w.peer fd, ∀ m ∈ nextMessage p.2 beyond.1,
      P m.1 m.2.1 beyond.2 orders p.2 w.downloader))
  | .receive _ _ _ | .sent _ _ | .failure _ | .sweep _ _ _ => isTrue trivial

/-- What a handler finds: pieces of the torrent in progress and in the hands of the peer, and blocks of the torrent
pending that are requested, and not from another peer. -/
structure Safe (cfg : Config) (held : PeerID → Set (Nat × Nat)) (id : PeerID) (ctx : PeerContext)
    (dl : Downloader) : Prop where
  ok : dl.pieceManager.Ok
  pieces : dl.pieceManager.InRange cfg.layout
  covered : Ledger.Covered ⟨dl.pieceManager.requested cfg.layout, Function.update held id {k | k ∈ ctx.pending}⟩
  sizes : ∀ k size, ctx.pending.lookup k = some size → cfg.layout.HasBlock k size
  haves : ∀ idx ∈ ctx.haves, idx < cfg.layout.numPieces

lemma Safe.congr (h : Safe cfg held id ctx dl) (ctx' : PeerContext) (hp : ctx'.pending = ctx.pending)
    (hhaves : ctx'.haves = ctx.haves) : Safe cfg held id ctx' dl :=
  ⟨h.ok, h.pieces, by rw [hp]; exact h.covered, by rw [hp]; exact h.sizes, by rw [hhaves]; exact h.haves⟩

lemma Safe.pending_requested (h : Safe cfg held id ctx dl) (hk : k ∈ ctx.pending) :
    k ∈ dl.pieceManager.requested cfg.layout := h.covered.requested id k (by simpa using hk)

/-- Pending blocks are forgotten. -/
lemma Safe.forget (h : Safe cfg held id ctx dl)
    (hp : ∀ k size, ctx'.pending.lookup k = some size → ctx.pending.lookup k = some size)
    (hhaves : ∀ idx ∈ ctx'.haves, idx ∈ ctx.haves) : Safe cfg held id ctx' dl := by
  refine ⟨h.ok, h.pieces, h.covered.mono fun i k hk => ?_, fun k size hl => h.sizes k size (hp k size hl),
    fun idx hidx => h.haves idx (hhaves idx hidx)⟩
  by_cases hi : i = id
  · subst hi
    simp only [Function.update_self] at hk ⊢
    obtain ⟨size, hl⟩ := Option.isSome_iff_exists.1 (AList.lookup_isSome.2 hk)
    exact AList.lookup_isSome.1 (by rw [hp k size hl]; rfl)
  · simpa [Function.update_of_ne hi] using hk

/-- Pending blocks are taken off both sides. -/
lemma Safe.drop (h : Safe cfg held id ctx dl) {s : Set (Nat × Nat)} (hs : ∀ k ∈ s, k ∈ ctx.pending)
    (hok : dl'.pieceManager.Ok) (hd : dl.pieceManager.Descends dl'.pieceManager)
    (hreq : dl'.pieceManager.requested cfg.layout = dl.pieceManager.requested cfg.layout \ s)
    (hp : ∀ k size, ctx'.pending.lookup k = some size → ctx.pending.lookup k = some size ∧ k ∉ s)
    (hhaves : ctx'.haves = ctx.haves) : Safe cfg held id ctx' dl' := by
  refine ⟨hok, h.pieces.descends hd, ?_, fun k size hl => h.sizes k size (hp k size hl).1, hhaves ▸ h.haves⟩
  have hdrop := h.covered.drop (i := id) (s := s) (by simp only [Function.update_self]; exact hs)
  simp only [Ledger.drop, Function.update_self, Function.update_idem] at hdrop
  rw [hreq]
  refine hdrop.mono fun i k hk => ?_
  by_cases hi : i = id
  · subst hi
    simp only [Function.update_self] at hk ⊢
    obtain ⟨size, hl⟩ := Option.isSome_iff_exists.1 (AList.lookup_isSome.2 hk)
    exact ⟨AList.lookup_isSome.1 (by rw [(hp k size hl).1]; rfl), (hp k size hl).2⟩
  · simpa [Function.update_of_ne hi] using hk

theorem Safe.clearPendingFromPeer (h : Safe cfg held id ctx dl)
    (hrun : clearPendingFromPeer cfg ctx dl = some (ctx', dl')) : Safe cfg held id ctx' dl' := by
  obtain ⟨pm, hreset, rfl, rfl⟩ := clearPendingFromPeer_cases hrun
  obtain ⟨hok, hset⟩ := PieceManager.onPeerReset_spec h.ok ctx.pending.keys_nodup
    (fun k hk => h.pending_requested (AList.mem_keys.2 hk)) hreset
  exact h.drop (fun k hk => AList.mem_keys.2 hk) hok (PieceManager.onPeerReset_descends hreset) hset
    (fun k size hl => by simp at hl) rfl

theorem Safe.handlePiece (h : Safe cfg held id ctx dl)
    (hrun : handlePiece cfg message beyond ctx dl = some (ctx', dl')) : Safe cfg held id ctx' dl' := by
  have herase : ∀ k' k size, (ctx.pending.erase k').lookup k = some size → ctx.pending.lookup k = some size ∧
    k ≠ k' := by
    intro k' k size hl
    have hne : k ≠ k' := by
      rintro rfl
      simp at hl
    exact ⟨by rwa [AList.lookup_erase_ne hne] at hl, hne⟩
  rcases handlePiece_cases hrun with ⟨-, rfl, rfl⟩ | ⟨blockSize, hfind, rfl, ⟨-, rfl⟩ | ⟨ready, hrecv⟩⟩
  · exact h
  · exact h.forget (fun k size hl => (herase _ k size hl).1) fun _ hidx => hidx
  · have hk : (field message beyond 0, field message beyond 4) ∈ ctx.pending :=
      AList.lookup_isSome.1 (by rw [answered] at hfind; rw [hfind]; rfl)
    obtain ⟨hok, hset⟩ := PieceManager.onBlockReceived_spec h.ok (h.pending_requested hk) hrecv
    refine h.drop (s := {(field message beyond 0, field message beyond 4)}) ?_ hok
      (PieceManager.onBlockReceived_descends hrecv) hset (fun k size hl => herase _ k size hl) rfl
    rintro k rfl
    exact hk

/-- A field of a payload that is long enough does not depend on what is behind it. -/
lemma field_eq {offset : Nat} (h : offset + 4 ≤ message.length) (beyond beyond' : Bytes) :
    field message beyond offset = field message beyond' offset := by
  have hcut : ∀ rest : Bytes, ((message ++ rest).drop offset).take 4 = (message.drop offset).take 4 := by
    intro rest
    rw [List.drop_append_of_le_length (by omega), List.take_append_of_le_length (by rw [List.length_drop]; omega)]
  rw [field, field, hcut, hcut]

theorem Safe.handleMessage (h : Safe cfg held id ctx dl) (hhonest : Honest cfg msgType message)
    (hrun : handleMessage cfg msgType message beyond ctx dl = some (ctx', dl')) : Safe cfg held id ctx' dl' := by
  cases msgType with
  | Piece => exact h.handlePiece hrun
  | Choke =>
    obtain ⟨ctx₁, hclear, rfl⟩ := handleChoke_cases hrun
    exact (h.clearPendingFromPeer hclear).congr _ rfl rfl
  | Unchoke =>
    obtain ⟨rfl, rfl⟩ := Prod.mk.inj (Option.some.inj hrun)
    exact h.congr _ rfl rfl
  | Have =>
    obtain ⟨rfl, rfl⟩ := Prod.mk.inj (Option.some.inj hrun)
    obtain ⟨hlong, hlt⟩ := hhonest.1 rfl
    refine ⟨h.ok, h.pieces, h.covered, h.sizes, fun idx hidx => ?_⟩
    rcases Finset.mem_insert.1 hidx with rfl | hidx
    · rwa [field_eq hlong beyond []]
    · exact h.haves idx hidx
  | Bitfield =>
    obtain ⟨rfl, rfl⟩ := Prod.mk.inj (Option.some.inj hrun)
    unfold handleBitfield
    split
    · exact h
    · rename_i hlen
      exact ⟨h.ok, h.pieces, h.covered, h.sizes, hhonest.2.1 rfl (not_not.1 hlen)⟩
  | Other | Unknown =>
    obtain ⟨rfl, rfl⟩ := Prod.mk.inj (Option.some.inj hrun)
    exact h

/-- What is pending after requests was so before or is one of them. -/
lemma lookup_addRequests {size : Nat} (h : (blocks.foldl addRequest ctx).pending.lookup k = some size) :
    ctx.pending.lookup k = some size ∨ ∃ blk ∈ blocks, blk.key = k ∧ blk.blockSize = size := by
  induction blocks generalizing ctx with
  | nil => exact Or.inl h
  | cons blk rest ih =>
    rcases ih h with hl | ⟨blk', hblk', hkey⟩
    · simp only [addRequest] at hl
      split at hl
      · exact Or.inl hl
      · by_cases hk : k = blk.key
        · subst hk
          rw [AList.lookup_insert] at hl
          exact Or.inr ⟨blk, List.mem_cons_self, rfl, Option.some.inj hl⟩
        · exact Or.inl (by rwa [AList.lookup_insert_ne hk] at hl)
    · exact Or.inr ⟨blk', List.mem_cons_of_mem _ hblk', hkey⟩

lemma addRequests_haves : (blocks.foldl addRequest ctx).haves = ctx.haves := by
  induction blocks generalizing ctx with
  | nil => rfl
  | cons blk rest ih =>
    rw [List.foldl_cons, ih]
    rfl

theorem Safe.afterMessage (h : Safe cfg held id ctx dl) (horders : ∀ idx ∈ orders.haves, idx ∈ ctx.haves)
    (hrun : afterMessage cfg orders ctx dl = some (ctx', dl')) : Safe cfg held id ctx' dl' := by
  cases afterMessage_cases hrun with
  | drops => exact h.congr _ rfl rfl
  | unchoke => exact h.congr _ rfl rfl
  | waits => exact h
  | busy => exact h
  | @requests blocks pm _ _ hget =>
    have hout := PieceManager.getPendingBlocks_handsOut h.ok hget
    obtain ⟨hrange, hhas⟩ := (PieceManager.getPendingBlocks_asks hget).inRange
      (fun idx hidx => h.haves idx (horders idx hidx)) h.pieces
    refine ⟨hout.ok, hrange, ?_, fun k size hl => ?_, by rw [addRequests_haves]; exact h.haves⟩
    · have htake := h.covered.take id (s := {k | k ∈ blocks.map PieceBlock.key})
        (Set.disjoint_left.2 fun k hk hk' => hout.fresh k hk' hk)
      have hset : {k | k ∈ (blocks.foldl addRequest ctx).pending} =
          {k | k ∈ ctx.pending} ∪ {k | k ∈ blocks.map PieceBlock.key} := by
        ext k
        exact mem_addRequests
      simp only [Ledger.take, Function.update_self, Function.update_idem] at htake
      rwa [← hset, ← hout.requested] at htake
    · rcases lookup_addRequests hl with hl | ⟨blk, hblk, rfl, rfl⟩
      · exact h.sizes k size hl
      · exact hhas blk hblk

/-- What a handler finds keeps it within bounds. -/
theorem Safe.withinBounds (h : Safe cfg held id ctx dl) (hreg : cfg.layout.Regular)
    (hhonest : Honest cfg msgType message)
    (horders : Iterates cfg msgType message beyond orders ctx dl) :
    WithinBounds cfg msgType message beyond orders ctx dl where
  reads := by
    cases msgType with
    | Have => exact (hhonest.1 rfl).1
    | Piece =>
      have hlong := hhonest.2.2 rfl
      rw [reads]
      split
      · rename_i blockSize piece hanswered hl
        split
        · rename_i hvalid
          obtain ⟨hidx, b, hreq, hoffset⟩ := h.sizes _ blockSize hanswered
          have hsize : piece.actualPieceSize = cfg.layout.actualPieceSize (field message beyond 0) :=
            PieceManager.InRange.actualPieceSize h.pieces hl
          have hlength := (hreg.requests hidx hreq).2
          rw [Layout.blockLength] at hlength
          simp only at hlength hoffset
          rw [validBlock, beq_iff_eq] at hvalid
          rw [hsize, hoffset]
          omega
        · exact hlong
      · exact hlong
    | Bitfield => exact le_rfl
    | Choke | Unchoke | Other | Unknown => exact Nat.zero_le _
  accepts := by
    rintro rfl blockSize hanswered -
    have hk : (field message beyond 0, field message beyond 4) ∈ ctx.pending :=
      AList.lookup_isSome.1 (Option.isSome_iff_exists.2 ⟨blockSize, hanswered⟩)
    exact PieceManager.onBlockReceived_isSome hreg h.pieces h.ok (h.pending_requested hk) message beyond
  asks := by
    rintro ⟨ctx₁, dl₁⟩ hhandle ⟨blocks, pm⟩ hget blk hblk
    have h₁ := h.handleMessage hhonest hhandle
    obtain ⟨-, hhas⟩ := (PieceManager.getPendingBlocks_asks hget).inRange
      (fun idx hidx => h₁.haves idx (horders _ hhandle idx hidx)) h₁.pieces
    obtain ⟨hidx, b, hreq, hoffset⟩ := hhas blk hblk
    obtain ⟨hlt, hsize⟩ := hreg.requests hidx hreq
    have hle := Layout.actualPieceSize_le_lengthOf hidx
    rw [Layout.blockLength] at hsize
    simp only [PieceBlock.key] at *
    exact ⟨hidx, by omega⟩

/-! ## Runs -/

/-- The pieces in progress and those that the peers have are pieces of the torrent, and so are the pending blocks;
they are requested, each from one peer. -/
structure Secure (cfg : Config) (w : World) : Prop where
  ok : w.downloader.pieceManager.Ok
  pieces : w.downloader.pieceManager.InRange cfg.layout
  covered : (w.ledger cfg).Covered
  sizes : ∀ id ctx, w.states.lookup id = some ctx →
    ∀ k size, ctx.pending.lookup k = some size → cfg.layout.HasBlock k size
  haves : ∀ id ctx, w.states.lookup id = some ctx → ∀ idx ∈ ctx.haves, idx < cfg.layout.numPieces

lemma Secure.safe (h : Secure cfg w) (hl : w.states.lookup id = some ctx) :
    Safe cfg (w.ledger cfg).held id ctx w.downloader := by
  refine ⟨h.ok, h.pieces, ?_, h.sizes id ctx hl, h.haves id ctx hl⟩
  have hheld : (w.ledger cfg).held id = {k | k ∈ ctx.pending} := by
    ext k
    simp [World.ledger, hl]
  rw [← hheld, Function.update_eq_self]
  exact h.covered

lemma Secure.put (h : Secure cfg w) (hs : Safe cfg (w.ledger cfg).held id ctx' dl') :
    Secure cfg (w.put id ctx' dl') := by
  have hlookup : ∀ id' ctx, (w.put id ctx' dl').states.lookup id' = some ctx →
      ctx = ctx' ∨ w.states.lookup id' = some ctx := by
    intro id' ctx hl
    by_cases hid : id' = id
    · subst hid
      exact Or.inl (by simpa [World.put, eq_comm] using hl)
    · exact Or.inr (by simpa [World.put, AList.lookup_insert_ne hid] using hl)
  refine ⟨hs.ok, hs.pieces, ?_, fun id' ctx hl => ?_, fun id' ctx hl => ?_⟩
  · rw [ledger_put]
    exact hs.covered
  · rcases hlookup id' ctx hl with rfl | hl
    · exact hs.sizes
    · exact h.sizes id' ctx hl
  · rcases hlookup id' ctx hl with rfl | hl
    · exact hs.haves
    · exact h.haves id' ctx hl

lemma Secure.fd2PeerID (h : Secure cfg w) (fds : AList (fun _ : Int => PeerID)) :
    Secure cfg { w with fd2PeerID := fds } := ⟨h.ok, h.pieces, h.covered, h.sizes, h.haves⟩

theorem Secure.sweepPeer (h : Secure cfg w) {tick newFd : Int} (hl : w.states.lookup id = some ctx)
    (hrun : sweepPeer cfg w id ctx tick newFd = some w') : Secure cfg w' := by
  have hs := h.safe hl
  rcases sweepPeer_cases hrun with rfl | ⟨ctx₁, dl₁, hwait, htimeout, hrest⟩
  · exact h
  · have hs₁ : Safe cfg (w.ledger cfg).held id ctx₁ dl₁ := by
      rcases timeout_cases hwait htimeout with ⟨rfl, hctx, -⟩ | ⟨cancels, hclear, -⟩
      · rw [hctx]
        exact hs.congr _ rfl rfl
      · exact (hs.congr { ctx with sendBuffer := cancels } rfl rfl).clearPendingFromPeer hclear
    rcases hrest with rfl | ⟨ctx₂, dl₂, fds, hclear, rfl⟩ | ⟨-, -, -, -, fds, rfl⟩
    · exact h.put hs₁
    · have hs₂ := (hs₁.clearPendingFromPeer hclear).congr { ctx₂ with lastReadTimeStamp := tick } rfl rfl
      exact (h.put hs₂).fd2PeerID fds
    · refine (h.put (hs₁.forget ?_ ?_)).fd2PeerID fds
      · intro k size hk
        simp [PeerContext.onReconnect] at hk
      · intro idx hidx
        simp [PeerContext.onReconnect] at hidx

lemma onReceive_haves (cfg : Config) (recvBytes : Bytes) (tick : Int) (ctx : PeerContext) :
    (onReceive cfg recvBytes tick ctx).haves = ctx.haves := by
  unfold onReceive
  simp only []
  split
  · split
    · rfl
    · rfl
  · rfl

theorem Secure.step (h : Secure cfg w) {e : Event}
    (hhonest : OnMessage (fun msgType message _ _ _ _ => Honest cfg msgType message) w e)
    (horders : OnMessage (Iterates cfg) w e) (hrun : step cfg w e = some w') : Secure cfg w' := by
  cases step_cases hrun with
  | @receive fd recvBytes tick id ctx hpeer _ =>
    exact h.put ((h.safe (peer_eq_some hpeer)).congr _ (onReceive_frame cfg recvBytes tick ctx).1
      (onReceive_haves cfg recvBytes tick ctx))
  | @message fd beyond orders id ctx ctx' dl hpeer hmsg =>
    obtain ⟨msgType, message, size, ctx₁, dl₁, ctx₂, hnext, hhandle, hafter, rfl⟩ := onMessage_cases hmsg
    have hs := (h.safe (peer_eq_some hpeer)).handleMessage (hhonest _ hpeer _ hnext) hhandle
    exact h.put ((hs.afterMessage (horders _ hpeer _ hnext _ hhandle) hafter).congr _ rfl rfl)
  | sent hpeer _ => exact h.put ((h.safe (peer_eq_some hpeer)).congr _ rfl rfl)
  | failure hpeer => exact h.put ((h.safe (peer_eq_some hpeer)).congr _ rfl rfl)
  | sweep hl hsweep => exact h.sweepPeer hl hsweep

lemma Secure.withinBounds (h : Secure cfg w) (hreg : cfg.layout.Regular) {e : Event}
    (hhonest : OnMessage (fun msgType message _ _ _ _ => Honest cfg msgType message) w e)
    (horders : OnMessage (Iterates cfg) w e) : OnMessage (WithinBounds cfg) w e := by
  cases e with
  | message fd beyond orders =>
    rintro ⟨id, ctx⟩ hpeer ⟨msgType, message, size⟩ hnext
    exact (h.safe (peer_eq_some hpeer)).withinBounds hreg (hhonest _ hpeer _ hnext) (horders _ hpeer _ hnext)
  | receive | sent | failure | sweep => trivial

lemma Initial.secure (h : Initial w) (hhaves : ∀ id ctx, w.states.lookup id = some ctx → ctx.haves = ∅) (cfg : Config) :
    Secure cfg w := by
  refine ⟨(h.inv cfg).pieces, ?_, (h.inv cfg).balanced.covered, ?_, ?_⟩
  · intro idx p hl
    simp [h.pieces] at hl
  · intro id ctx hl k size hk
    simp [(h.idle id ctx hl).1] at hk
  · intro id ctx hl idx hidx
    simp [hhaves id ctx hl] at hidx

/-- On every run in which the messages name only pieces that the torrent has and have the fields that are read: the
handlers stay within their payloads, the blocks asked for lie within their pieces, and no block is refused. -/
theorem withinBounds_of_honest (cfg : Config) (w : World) (events : List Event) (hreg : cfg.layout.Regular)
    (h : Initial w) (hhaves : ∀ id ctx, w.states.lookup id = some ctx → ctx.haves = ∅)
    (horders : Throughout (step cfg) (OnMessage (Iterates cfg)) w events)
    (hhonest : Throughout (step cfg) (OnMessage fun msgType message _ _ _ _ => Honest cfg msgType message) w events) :
    Throughout (step cfg) (OnMessage (WithinBounds cfg)) w events :=
  throughout_of_inv (fun _ _ hs hC => Secure.withinBounds hs hreg hC.2 hC.1)
    (fun _ _ _ hs hC hrun => hs.step hC.2 hC.1 hrun) (h.secure hhaves cfg) (horders.and hhonest)

section HostileHave

lemma regular_tiny : tiny.layout.Regular where
  hashes := by decide
  blocks := by decide

lemma haves_onePeer : ∀ id ctx, onePeer.states.lookup id = some ctx → ctx.haves = ∅ := by
  intro id ctx hl
  obtain rfl := mem_singleton_states rfl hl
  obtain rfl := Option.some.inj hl
  rfl

/-- The only piece is offered, and the peer unchokes. -/
def offer : List Event :=
  [.receive 3 (buildHandshake (zeros 20) (zeros 20) ++ buildMessageHelper 5 4 (zeros 4) ++ buildMessageHelper 1 1 []) 1,
    .message 3 (0, []) ⟨[], [0]⟩, .message 3 (0, []) ⟨[], [0]⟩]

theorem withinBounds_of_honest_offer : Throughout (step tiny) (OnMessage (WithinBounds tiny)) onePeer offer :=
  withinBounds_of_honest tiny onePeer offer regular_tiny initial_onePeer haves_onePeer (by decide) (by decide)

/-- A piece is offered that the torrent does not have. -/
def hostileHave : List Event :=
  [.receive 3 (buildHandshake (zeros 20) (zeros 20) ++ buildMessageHelper 5 4 (beBytes 4 7) ++
      buildMessageHelper 1 1 []) 1,
    .message 3 (0, []) ⟨[], [7]⟩, .message 3 (0, []) ⟨[], [7]⟩]

/-- It is asked for. -/
theorem not_withinBounds_hostileHave : ¬ ∀ cfg w events, cfg.layout.Regular → Initial w →
    (∀ id ctx, w.states.lookup id = some ctx → ctx.haves = ∅) →
    Throughout (step cfg) (OnMessage (Iterates cfg)) w events →
    Throughout (step cfg) (OnMessage (WithinBounds cfg)) w events := by
  intro h
  have hbounds := h tiny onePeer hostileHave regular_tiny initial_onePeer haves_onePeer (by decide)
  revert hbounds
  decide

end HostileHave

end CppExperiments.Torrent
