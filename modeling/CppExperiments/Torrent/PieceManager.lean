import CppExperiments.Hash.Sha1
import CppExperiments.Lib.Text
import Mathlib.Data.Finset.Card
import Mathlib.Data.List.AList

/-!
# The piece manager

Which blocks of which pieces are requested, received and still to be asked for. An operation
returns `none` where the code throws or leaves a container's bounds.
-/

namespace CppExperiments.Torrent

/-- The constants of a `PieceManager`. -/
structure Layout where
  totalSize : Nat
  pieceSize : Nat
  blockSize : Nat
  pieceBlob : Bytes
  totalSize_lt : totalSize < 2 ^ 64
  pieceSize_pos : 0 < pieceSize
  pieceSize_lt : pieceSize < 2 ^ 32
  blockSize_pos : 0 < blockSize
  blockSize_lt : blockSize < 2 ^ 16

inductive State where
  | PENDING
  | REQUESTED
  | DONE
  deriving DecidableEq

structure Piece where
  buffer : Bytes
  actualPieceSize : Nat
  lastBlockSize : Nat
  actualNumBlocks : Nat
  states : List State
  requestedBlocks : Nat
  completedBlocks : Nat

/-- A block on request. Two are equal if piece and offset are. -/
structure PieceBlock where
  pieceIdx : Nat
  blockOffset : Nat
  blockSize : Nat

structure PieceManager where
  haves : Finset Nat
  partialPieces : AList (fun _ : Nat => Piece)

def incr16 (n : Nat) : Nat := (n + 1) % 2 ^ 16

def decr16 (n : Nat) : Nat := (n + (2 ^ 16 - 1)) % 2 ^ 16

def Layout.numPieces (lay : Layout) : Nat := (lay.totalSize + lay.pieceSize - 1) % 2 ^ 32 / lay.pieceSize

def Layout.actualPieceSize (lay : Layout) (pieceIdx : Nat) : Nat :=
  if pieceIdx < (lay.numPieces + (2 ^ 32 - 1)) % 2 ^ 32 ∨ lay.totalSize % lay.pieceSize = 0 then lay.pieceSize
  else lay.totalSize % lay.pieceSize

def Piece.ofIdx (lay : Layout) (pieceIdx : Nat) : Piece :=
  let actualPieceSize := lay.actualPieceSize pieceIdx
  let actualNumBlocks := (actualPieceSize + lay.blockSize - 1) % 2 ^ 32 / lay.blockSize % 2 ^ 16
  { buffer := zeros lay.pieceSize
    actualPieceSize := actualPieceSize
    lastBlockSize := if actualPieceSize % lay.blockSize = 0 then lay.blockSize else actualPieceSize % lay.blockSize
    actualNumBlocks := actualNumBlocks
    states := List.replicate actualNumBlocks .PENDING
    requestedBlocks := 0
    completedBlocks := 0 }

/-- `std::memcpy` into a buffer. -/
def memcpyAt (buffer : Bytes) (offset : Nat) (bytes : Bytes) : Bytes :=
  buffer.take offset ++ bytes ++ buffer.drop (offset + bytes.length)

namespace Piece

/-- The bytes behind the payload in memory are `beyond`. -/
def writeBlock (lay : Layout) (p : Piece) (blockOffset : Nat) (payload beyond : Bytes) : Option Piece :=
  if blockOffset ≥ p.actualPieceSize then none
  else if blockOffset / lay.blockSize ≥ p.states.length then none
  else
    let writeSize := min lay.blockSize (p.actualPieceSize - blockOffset)
    some { p with
      buffer := memcpyAt p.buffer blockOffset (((payload ++ beyond).drop 8).take writeSize)
      states := p.states.set (blockOffset / lay.blockSize) .DONE
      requestedBlocks := decr16 p.requestedBlocks
      completedBlocks := incr16 p.completedBlocks }

def requestBlockNum (lay : Layout) (p : Piece) (blockIdx : Nat) : Option (Nat × Piece) :=
  if p.states[blockIdx]? = some .PENDING then
    some (if blockIdx + 1 < p.actualNumBlocks then lay.blockSize else p.lastBlockSize,
      { p with states := p.states.set blockIdx .REQUESTED, requestedBlocks := incr16 p.requestedBlocks })
  else none

/-- The block loops of `getPendingBlocks`, over the `n` blocks from `blockIdx` on: the one over a piece in
progress skips what is not pending, the one over a new piece does not look. -/
def requestLoop (lay : Layout) (pieceIdx : Nat) (skip : Bool) : Nat → Nat → Nat → Piece →
    Option (List PieceBlock × Piece)
  | 0, _, _, p => some ([], p)
  | _ + 1, _, 0, p => some ([], p)
  | n + 1, blockIdx, room + 1, p =>
    if skip = true ∧ p.states[blockIdx]? ≠ some .PENDING then requestLoop lay pieceIdx skip n (blockIdx + 1)
      (room + 1) p
    else do
      let (actualBlockSize, p) ← p.requestBlockNum lay blockIdx
      let (result, p) ← requestLoop lay pieceIdx skip n (blockIdx + 1) room p
      return (⟨pieceIdx, blockIdx * lay.blockSize, actualBlockSize⟩ :: result, p)

end Piece

namespace PieceManager

def finished (lay : Layout) (pm : PieceManager) : Bool := pm.haves.card == lay.numPieces

def getPieceHash (lay : Layout) (idx : Nat) : Option Bytes :=
  if idx ≥ lay.numPieces then none
  else if idx * 20 > lay.pieceBlob.length then none
  else some ((lay.pieceBlob.drop (idx * 20)).take 20)

def clearInTransitBlock (lay : Layout) (pm : PieceManager) (pieceIdx blockOffset : Nat) : Option PieceManager := do
  let piece ← pm.partialPieces.lookup pieceIdx
  if blockOffset / lay.blockSize ≥ piece.states.length then none
  else
    let piece := { piece with
      states := piece.states.set (blockOffset / lay.blockSize) .PENDING
      requestedBlocks := decr16 piece.requestedBlocks }
    if piece.requestedBlocks = 0 ∧ piece.completedBlocks = 0 then
      return { pm with partialPieces := pm.partialPieces.erase pieceIdx }
    else return { pm with partialPieces := pm.partialPieces.insert pieceIdx piece }

def onPeerReset (lay : Layout) : List (Nat × Nat) → PieceManager → Option PieceManager
  | [], pm => some pm
  | (pieceIdx, blockOffset) :: rest, pm => do
    let pm ← pm.clearInTransitBlock lay pieceIdx blockOffset
    onPeerReset lay rest pm

/-- The end of `onBlockReceived` for a piece whose blocks are all in: its bytes, if they have the listed hash. -/
def checkPiece (lay : Layout) (pieceIdx : Nat) (piece : Piece) : Option (Option Bytes) := do
  let retBuffer := piece.buffer.take piece.actualPieceSize
  let hash ← getPieceHash lay pieceIdx
  return if Hash.sha1 retBuffer true ≠ hash then none else some retBuffer

def onBlockReceived (lay : Layout) (pm : PieceManager) (pieceIdx blockOffset : Nat) (payload beyond : Bytes) :
    Option (Option Bytes × PieceManager) := do
  let piece ← pm.partialPieces.lookup pieceIdx
  let piece ← piece.writeBlock lay blockOffset payload beyond
  if piece.completedBlocks = piece.actualNumBlocks then
    let ready ← checkPiece lay pieceIdx piece
    let haves := if ready.isSome then insert pieceIdx pm.haves else pm.haves
    return (ready, ⟨haves, pm.partialPieces.erase pieceIdx⟩)
  else return (none, { pm with partialPieces := pm.partialPieces.insert pieceIdx piece })

/-- The first loop of `getPendingBlocks`, over the pieces in progress. -/
def requestPartial (lay : Layout) (peerHaves : Finset Nat) : List Nat → Nat → PieceManager →
    Option (List PieceBlock × PieceManager)
  | [], _, pm => some ([], pm)
  | _ :: _, 0, pm => some ([], pm)
  | pieceIdx :: rest, room + 1, pm =>
    match pm.partialPieces.lookup pieceIdx with
    | none => none
    | some piece =>
      if pieceIdx ∈ peerHaves then do
        let (blocks, piece) ← piece.requestLoop lay pieceIdx true piece.actualNumBlocks 0 (room + 1)
        let (more, pm) ← requestPartial lay peerHaves rest (room + 1 - blocks.length)
          { pm with partialPieces := pm.partialPieces.insert pieceIdx piece }
        return (blocks ++ more, pm)
      else requestPartial lay peerHaves rest (room + 1) pm

/-- The second loop, over the pieces of the peer. -/
def requestNew (lay : Layout) : List Nat → Nat → PieceManager → Option (List PieceBlock × PieceManager)
  | [], _, pm => some ([], pm)
  | _ :: _, 0, pm => some ([], pm)
  | pieceIdx :: rest, room + 1, pm =>
    if pieceIdx ∉ pm.haves ∧ pieceIdx ∉ pm.partialPieces then do
      let piece := Piece.ofIdx lay pieceIdx
      let (blocks, piece) ← piece.requestLoop lay pieceIdx false piece.actualNumBlocks 0 (room + 1)
      let (more, pm) ← requestNew lay rest (room + 1 - blocks.length)
        { pm with partialPieces := pm.partialPieces.insert pieceIdx piece }
      return (blocks ++ more, pm)
    else requestNew lay rest (room + 1) pm

/-- The orders in which the two hash containers are iterated. -/
structure Orders where
  pieces : List Nat
  haves : List Nat

def getPendingBlocks (lay : Layout) (orders : Orders) (pm : PieceManager) (peerHaves : Finset Nat) (count : Nat) :
    Option (List PieceBlock × PieceManager) := do
  let (first, pm) ← requestPartial lay peerHaves orders.pieces count pm
  let (second, pm) ← requestNew lay orders.haves (count - first.length) pm
  return (first ++ second, pm)

end PieceManager

namespace Piece

variable {lay : Layout} {p p' : Piece} {b : Nat}

/-- The counters count. -/
structure Ok (p : Piece) : Prop where
  length : p.states.length = p.actualNumBlocks
  few : p.actualNumBlocks < 2 ^ 16
  requestedBlocks : p.requestedBlocks = p.states.count .REQUESTED
  completedBlocks : p.completedBlocks = p.states.count .DONE

/-- The offsets of the requested blocks. -/
def requested (lay : Layout) (p : Piece) : Set Nat :=
  {o | ∃ b, p.states[b]? = some .REQUESTED ∧ o = b * lay.blockSize}

lemma ofIdx_ok (lay : Layout) (pieceIdx : Nat) : (Piece.ofIdx lay pieceIdx).Ok where
  length := by simp [ofIdx]
  few := Nat.mod_lt _ (by decide)
  requestedBlocks := by simp [ofIdx, List.count_replicate]
  completedBlocks := by simp [ofIdx, List.count_replicate]

lemma requested_ofIdx (lay : Layout) (pieceIdx : Nat) : (Piece.ofIdx lay pieceIdx).requested lay = ∅ := by
  ext o
  simp [requested, ofIdx, List.getElem?_replicate]

lemma mem_requested_block (lay : Layout) (p : Piece) (b : Nat) :
    b * lay.blockSize ∈ p.requested lay ↔ p.states[b]? = some .REQUESTED := by
  constructor
  · rintro ⟨b', hb', heq⟩
    rwa [Nat.eq_of_mul_eq_mul_right lay.blockSize_pos heq]
  · intro h
    exact ⟨b, h, rfl⟩

lemma requested_set_of_ne {s : State} (hs : s ≠ .REQUESTED) (hb : b < p.states.length) (p' : Piece)
    (hp' : p'.states = p.states.set b s) : p'.requested lay = p.requested lay \ {b * lay.blockSize} := by
  ext o
  constructor
  · rintro ⟨b', hb', rfl⟩
    rw [hp'] at hb'
    have hne : b' ≠ b := by
      rintro rfl
      rw [List.getElem?_set_self hb] at hb'
      exact hs (Option.some.inj hb')
    rw [List.getElem?_set_ne hne.symm] at hb'
    exact ⟨⟨b', hb', rfl⟩, fun h => hne (Nat.eq_of_mul_eq_mul_right lay.blockSize_pos h)⟩
  · rintro ⟨⟨b', hb', rfl⟩, hne⟩
    have hbb : b ≠ b' := by
      rintro rfl
      exact hne rfl
    exact ⟨b', by rwa [hp', List.getElem?_set_ne hbb], rfl⟩

lemma requested_set_requested (hb : b < p.states.length) (p' : Piece)
    (hp' : p'.states = p.states.set b .REQUESTED) : p'.requested lay = p.requested lay ∪ {b * lay.blockSize} := by
  ext o
  constructor
  · rintro ⟨b', hb', rfl⟩
    rw [hp'] at hb'
    by_cases hbb : b = b'
    · subst hbb
      exact Or.inr rfl
    · rw [List.getElem?_set_ne hbb] at hb'
      exact Or.inl ⟨b', hb', rfl⟩
  · rintro (⟨b', hb', rfl⟩ | rfl)
    · by_cases hbb : b = b'
      · subst hbb
        exact ⟨b, by rw [hp', List.getElem?_set_self hb], rfl⟩
      · exact ⟨b', by rw [hp', List.getElem?_set_ne hbb, hb'], rfl⟩
    · exact ⟨b, by rw [hp', List.getElem?_set_self hb], rfl⟩

lemma incr16_eq {n : Nat} (h : n + 1 < 2 ^ 16) : incr16 n = n + 1 := Nat.mod_eq_of_lt h

lemma decr16_eq {n : Nat} (h : 0 < n) (h' : n < 2 ^ 16) : decr16 n = n - 1 := by
  unfold decr16
  omega

lemma count_set_of_ne {l : List State} {s t r : State} (hb : l[b]? = some s) (hs : s ≠ r) (ht : t ≠ r) :
    (l.set b t).count r = l.count r := by
  obtain ⟨hlt, rfl⟩ := List.getElem?_eq_some_iff.1 hb
  simp [List.count_set hlt, hs, ht]

lemma count_set_add {l : List State} {s t : State} (hb : l[b]? = some s) (hs : s ≠ t) :
    (l.set b t).count t = l.count t + 1 := by
  obtain ⟨hlt, rfl⟩ := List.getElem?_eq_some_iff.1 hb
  simp [List.count_set hlt, hs]

lemma count_set_sub {l : List State} {s t : State} (hb : l[b]? = some s) (ht : t ≠ s) :
    (l.set b t).count s = l.count s - 1 := by
  obtain ⟨hlt, rfl⟩ := List.getElem?_eq_some_iff.1 hb
  simp [List.count_set hlt, ht]

/-- A block changes from one state to another and the counters follow. -/
lemma Ok.move {s t : State} (h : p.Ok) (hb : p.states[b]? = some s) (p' : Piece) (hst : s ≠ t)
    (hstates : p'.states = p.states.set b t) (hnum : p'.actualNumBlocks = p.actualNumBlocks)
    (hreq : p'.requestedBlocks = if t = .REQUESTED then incr16 p.requestedBlocks
      else if s = .REQUESTED then decr16 p.requestedBlocks else p.requestedBlocks)
    (hdone : p'.completedBlocks = if t = .DONE then incr16 p.completedBlocks
      else if s = .DONE then decr16 p.completedBlocks else p.completedBlocks) : p'.Ok := by
  have hcount : ∀ r (n : Nat), n = p.states.count r →
      (if t = r then incr16 n else if s = r then decr16 n else n) = (p.states.set b t).count r := by
    rintro r n rfl
    have hle : (p.states.set b t).count r ≤ p.states.length := by
      simpa using List.count_le_length (a := r) (l := p.states.set b t)
    have hlen := h.length
    have hfew := h.few
    by_cases htr : t = r
    · subst htr
      rw [if_pos rfl, count_set_add hb hst] at *
      exact incr16_eq (by omega)
    · by_cases hsr : s = r
      · subst hsr
        have hpos : 0 < p.states.count s := List.count_pos_iff.2 (List.mem_of_getElem? hb)
        have hle' : p.states.count s ≤ p.states.length := List.count_le_length
        rw [if_neg htr, if_pos rfl, count_set_sub hb htr]
        exact decr16_eq hpos (by omega)
      · rw [if_neg htr, if_neg hsr, count_set_of_ne hb hsr htr]
  constructor
  · rw [hstates, List.length_set, h.length, hnum]
  · rw [hnum]
    exact h.few
  · rw [hreq, hcount _ _ h.requestedBlocks, hstates]
  · rw [hdone, hcount _ _ h.completedBlocks, hstates]

end Piece

def PieceBlock.key (blk : PieceBlock) : Nat × Nat := (blk.pieceIdx, blk.blockOffset)

/-- The blocks that a loop over one piece hands out, and the piece it leaves. -/
theorem Piece.requestLoop_spec {lay : Layout} {pieceIdx : Nat} {skip : Bool} {n blockIdx room : Nat} {p p' : Piece}
    {blocks : List PieceBlock} (h : p.Ok)
    (hrun : p.requestLoop lay pieceIdx skip n blockIdx room = some (blocks, p')) :
    p'.Ok ∧ p'.requested lay = p.requested lay ∪ {o | (pieceIdx, o) ∈ blocks.map PieceBlock.key} ∧
    (∀ k ∈ blocks.map PieceBlock.key, k.1 = pieceIdx ∧ k.2 ∉ p.requested lay) ∧
    (blocks.map PieceBlock.key).Nodup ∧ blocks.length ≤ room := by
  induction n generalizing blockIdx room p blocks with
  | zero =>
    obtain ⟨rfl, rfl⟩ : blocks = [] ∧ p' = p := by simpa [requestLoop, eq_comm] using hrun
    simp [h]
  | succ n ih =>
    cases room with
    | zero =>
      obtain ⟨rfl, rfl⟩ : blocks = [] ∧ p' = p := by simpa [requestLoop, eq_comm] using hrun
      simp [h]
    | succ room =>
      rw [requestLoop] at hrun
      split at hrun
      · exact ih h hrun
      · cases hreq : p.requestBlockNum lay blockIdx with
        | none => simp [hreq] at hrun
        | some r =>
          obtain ⟨size, p₁⟩ := r
          cases hrest : p₁.requestLoop lay pieceIdx skip n (blockIdx + 1) room with
          | none => simp [hreq, hrest] at hrun
          | some r =>
            obtain ⟨more, p₂⟩ := r
            obtain ⟨rfl, rfl⟩ : ⟨pieceIdx, blockIdx * lay.blockSize, size⟩ :: more = blocks ∧ p₂ = p' := by
              simpa [hreq, hrest] using hrun
            unfold requestBlockNum at hreq
            split at hreq
            · rename_i hpending
              obtain ⟨-, hp₁⟩ := Prod.mk.inj (Option.some.inj hreq)
              have hstates : p₁.states = p.states.set blockIdx .REQUESTED := by rw [← hp₁]
              have hlt : blockIdx < p.states.length := (List.getElem?_eq_some_iff.1 hpending).1
              have hmoved : p₁.Ok := by
                refine h.move hpending p₁ (by decide) hstates ?_ ?_ ?_ <;> subst hp₁ <;> simp
              obtain ⟨hok, hset, hfresh, hnodup, hlen⟩ := ih hmoved hrest
              rw [requested_set_requested hlt p₁ hstates] at hset hfresh
              have hout : blockIdx * lay.blockSize ∉ p.requested lay := by
                rw [mem_requested_block, hpending]
                decide
              refine ⟨hok, ?_, ?_, ?_, ?_⟩
              · rw [hset, Set.union_assoc]
                congr 1
                ext o
                simp [PieceBlock.key]
              · intro k hk
                rcases List.mem_cons.1 hk with rfl | hk
                · exact ⟨rfl, hout⟩
                · exact ⟨(hfresh k hk).1, fun hmem => (hfresh k hk).2 (Or.inl hmem)⟩
              · refine List.nodup_cons.2 ⟨fun hmem => ?_, hnodup⟩
                exact (hfresh _ hmem).2 (Or.inr rfl)
              · simpa using hlen
            · cases hreq

namespace PieceManager

variable {lay : Layout} {pm pm' pm'' : PieceManager} {k : Nat × Nat} {room : Nat} {blocks more : List PieceBlock}

def Ok (pm : PieceManager) : Prop := ∀ pieceIdx piece, pm.partialPieces.lookup pieceIdx = some piece → piece.Ok

/-- The requested blocks, by piece and offset. -/
def requested (lay : Layout) (pm : PieceManager) : Set (Nat × Nat) :=
  {k | ∃ piece, pm.partialPieces.lookup k.1 = some piece ∧ k.2 ∈ piece.requested lay}

lemma Ok.insert (h : pm.Ok) {pieceIdx : Nat} {piece : Piece} (hp : piece.Ok) (haves : Finset Nat) :
    Ok ⟨haves, pm.partialPieces.insert pieceIdx piece⟩ := by
  intro idx q hq
  by_cases hidx : idx = pieceIdx
  · subst hidx
    rw [AList.lookup_insert] at hq
    exact Option.some.inj hq ▸ hp
  · exact h idx q (by rwa [AList.lookup_insert_ne hidx] at hq)

lemma Ok.erase (h : pm.Ok) (pieceIdx : Nat) (haves : Finset Nat) : Ok ⟨haves, pm.partialPieces.erase pieceIdx⟩ := by
  intro idx q hq
  by_cases hidx : idx = pieceIdx
  · subst hidx
    simp at hq
  · exact h idx q (by rwa [AList.lookup_erase_ne hidx] at hq)

lemma mem_requested_insert (pieceIdx : Nat) (piece : Piece) (haves : Finset Nat) :
    k ∈ requested lay ⟨haves, pm.partialPieces.insert pieceIdx piece⟩ ↔
      if k.1 = pieceIdx then k.2 ∈ piece.requested lay else k ∈ pm.requested lay := by
  obtain ⟨idx, o⟩ := k
  by_cases hk : idx = pieceIdx
  · subst hk
    simp [requested]
  · simp [requested, AList.lookup_insert_ne hk, hk]

lemma mem_requested_erase (pieceIdx : Nat) (haves : Finset Nat) :
    k ∈ requested lay ⟨haves, pm.partialPieces.erase pieceIdx⟩ ↔ k.1 ≠ pieceIdx ∧ k ∈ pm.requested lay := by
  obtain ⟨idx, o⟩ := k
  by_cases hk : idx = pieceIdx
  · subst hk
    simp [requested]
  · simp [requested, AList.lookup_erase_ne hk, hk]

lemma mem_requested_iff {idx o : Nat} {piece : Piece} (hl : pm.partialPieces.lookup idx = some piece) :
    (idx, o) ∈ pm.requested lay ↔ o ∈ piece.requested lay := by
  simp [requested, hl]

/-- The blocks handed out become requested, and were not before. -/
structure HandsOut (lay : Layout) (room : Nat) (pm : PieceManager) (blocks : List PieceBlock) (pm' : PieceManager) :
    Prop where
  ok : pm'.Ok
  requested : pm'.requested lay = pm.requested lay ∪ {k | k ∈ blocks.map PieceBlock.key}
  fresh : ∀ k ∈ blocks.map PieceBlock.key, k ∉ pm.requested lay
  nodup : (blocks.map PieceBlock.key).Nodup
  length : blocks.length ≤ room

lemma HandsOut.nil (h : pm.Ok) (room : Nat) : HandsOut lay room pm [] pm where
  ok := h
  requested := by simp
  fresh := by simp
  nodup := List.nodup_nil
  length := Nat.zero_le _

lemma HandsOut.append (h : HandsOut lay room pm blocks pm') (h' : HandsOut lay (room - blocks.length) pm' more pm'') :
    HandsOut lay room pm (blocks ++ more) pm'' where
  ok := h'.ok
  requested := by
    rw [h'.requested, h.requested, Set.union_assoc]
    congr 1
    ext k
    simp
  fresh := by
    intro k hk
    rw [List.map_append, List.mem_append] at hk
    rcases hk with hk | hk
    · exact h.fresh k hk
    · have hnot := h'.fresh k hk
      rw [h.requested] at hnot
      exact fun hmem => hnot (Or.inl hmem)
  nodup := by
    rw [List.map_append]
    refine h.nodup.append h'.nodup ?_
    intro k hk hk'
    have hnot := h'.fresh k hk'
    rw [h.requested] at hnot
    exact hnot (Or.inr hk)
  length := by
    have h1 := h.length
    have h2 := h'.length
    rw [List.length_append]
    omega

/-- The loop over one piece, for a piece that is in the map or as good as in it. -/
lemma handsOut_requestLoop {pieceIdx : Nat} {skip : Bool} {n blockIdx : Nat} {piece piece' : Piece} (h : pm.Ok)
    (hp : piece.Ok) (hreq : ∀ o, (pieceIdx, o) ∈ pm.requested lay ↔ o ∈ piece.requested lay)
    (hrun : piece.requestLoop lay pieceIdx skip n blockIdx room = some (blocks, piece')) :
    HandsOut lay room pm blocks { pm with partialPieces := pm.partialPieces.insert pieceIdx piece' } := by
  obtain ⟨hok, hset, hfresh, hnodup, hlen⟩ := Piece.requestLoop_spec hp hrun
  refine ⟨h.insert hok _, ?_, ?_, hnodup, hlen⟩
  · ext ⟨idx, o⟩
    rw [mem_requested_insert]
    split
    · rename_i hidx
      simp only at hidx
      subst hidx
      rw [hset, Set.mem_union, Set.mem_union, hreq]
      rfl
    · rename_i hidx
      refine ⟨Or.inl, ?_⟩
      rintro (hmem | hmem)
      · exact hmem
      · exact absurd (hfresh _ hmem).1 hidx
  · rintro ⟨idx, o⟩ hk
    obtain ⟨rfl, hout⟩ := hfresh _ hk
    exact fun hmem => hout ((hreq o).1 hmem)

/-- How blocks are asked for: out of a piece in progress that the peer has, or out of a new one, until there is no room
or nothing left. -/
inductive Asks (lay : Layout) (orders : Orders) (peerHaves : Finset Nat) :
    Nat → PieceManager → List PieceBlock → PieceManager → Prop where
  | done {room : Nat} {pm : PieceManager} : Asks lay orders peerHaves room pm [] pm
  | old {room pieceIdx : Nat} {pm pm' : PieceManager} {piece piece' : Piece} {blocks more : List PieceBlock} :
      pieceIdx ∈ orders.pieces → pieceIdx ∈ peerHaves → pm.partialPieces.lookup pieceIdx = some piece →
      piece.requestLoop lay pieceIdx true piece.actualNumBlocks 0 room = some (blocks, piece') →
      Asks lay orders peerHaves (room - blocks.length)
        { pm with partialPieces := pm.partialPieces.insert pieceIdx piece' } more pm' →
      Asks lay orders peerHaves room pm (blocks ++ more) pm'
  | new {room pieceIdx : Nat} {pm pm' : PieceManager} {piece' : Piece} {blocks more : List PieceBlock} :
      pieceIdx ∈ orders.haves → pieceIdx ∉ pm.haves → pieceIdx ∉ pm.partialPieces →
      (Piece.ofIdx lay pieceIdx).requestLoop lay pieceIdx false (Piece.ofIdx lay pieceIdx).actualNumBlocks 0 room =
        some (blocks, piece') →
      Asks lay orders peerHaves (room - blocks.length)
        { pm with partialPieces := pm.partialPieces.insert pieceIdx piece' } more pm' →
      Asks lay orders peerHaves room pm (blocks ++ more) pm'

variable {orders : Orders} {peerHaves : Finset Nat}

lemma Asks.append (h : Asks lay orders peerHaves room pm blocks pm')
    (h' : Asks lay orders peerHaves (room - blocks.length) pm' more pm'') :
    Asks lay orders peerHaves room pm (blocks ++ more) pm'' := by
  induction h with
  | done => exact h'
  | old horder hhave hl hloop _ ih =>
    rw [List.append_assoc]
    exact .old horder hhave hl hloop (ih (by rwa [Nat.sub_sub, ← List.length_append]))
  | new horder hhave hin hloop _ ih =>
    rw [List.append_assoc]
    exact .new horder hhave hin hloop (ih (by rwa [Nat.sub_sub, ← List.length_append]))

lemma requestPartial_asks {pieces : List Nat} (hpieces : ∀ idx ∈ pieces, idx ∈ orders.pieces)
    (hrun : requestPartial lay peerHaves pieces room pm = some (blocks, pm')) :
    Asks lay orders peerHaves room pm blocks pm' := by
  induction pieces generalizing room pm blocks with
  | nil =>
    obtain ⟨rfl, rfl⟩ : blocks = [] ∧ pm' = pm := by simpa [requestPartial, eq_comm] using hrun
    exact .done
  | cons pieceIdx rest ih =>
    rw [List.forall_mem_cons] at hpieces
    cases room with
    | zero =>
      obtain ⟨rfl, rfl⟩ : blocks = [] ∧ pm' = pm := by simpa [requestPartial, eq_comm] using hrun
      exact .done
    | succ room =>
      cases hl : pm.partialPieces.lookup pieceIdx with
      | none => simp [requestPartial, hl] at hrun
      | some piece =>
        simp only [requestPartial, hl] at hrun
        split at hrun
        · rename_i hhave
          obtain ⟨⟨out, piece'⟩, hloop, hrun⟩ := Option.bind_eq_some_iff.1 hrun
          obtain ⟨⟨more, pm₂⟩, hrest, hrun⟩ := Option.bind_eq_some_iff.1 hrun
          obtain ⟨rfl, rfl⟩ := Prod.mk.inj (Option.some.inj hrun)
          exact .old hpieces.1 hhave hl hloop (ih hpieces.2 hrest)
        · exact ih hpieces.2 hrun

lemma requestNew_asks {pieces : List Nat} (hpieces : ∀ idx ∈ pieces, idx ∈ orders.haves)
    (hrun : requestNew lay pieces room pm = some (blocks, pm')) : Asks lay orders peerHaves room pm blocks pm' := by
  induction pieces generalizing room pm blocks with
  | nil =>
    obtain ⟨rfl, rfl⟩ : blocks = [] ∧ pm' = pm := by simpa [requestNew, eq_comm] using hrun
    exact .done
  | cons pieceIdx rest ih =>
    rw [List.forall_mem_cons] at hpieces
    cases room with
    | zero =>
      obtain ⟨rfl, rfl⟩ : blocks = [] ∧ pm' = pm := by simpa [requestNew, eq_comm] using hrun
      exact .done
    | succ room =>
      simp only [requestNew] at hrun
      split at hrun
      · rename_i hnew
        obtain ⟨⟨out, piece'⟩, hloop, hrun⟩ := Option.bind_eq_some_iff.1 hrun
        obtain ⟨⟨more, pm₂⟩, hrest, hrun⟩ := Option.bind_eq_some_iff.1 hrun
        obtain ⟨rfl, rfl⟩ := Prod.mk.inj (Option.some.inj hrun)
        exact .new hpieces.1 hnew.1 hnew.2 hloop (ih hpieces.2 hrest)
      · exact ih hpieces.2 hrun

theorem getPendingBlocks_asks (hrun : getPendingBlocks lay orders pm peerHaves room = some (blocks, pm')) :
    Asks lay orders peerHaves room pm blocks pm' := by
  obtain ⟨⟨first, pm₁⟩, hfirst, hrun⟩ := Option.bind_eq_some_iff.1 hrun
  obtain ⟨⟨second, pm₂⟩, hsecond, hrun⟩ := Option.bind_eq_some_iff.1 hrun
  obtain ⟨rfl, rfl⟩ := Prod.mk.inj (Option.some.inj hrun)
  exact (requestPartial_asks (fun _ h => h) hfirst).append (requestNew_asks (fun _ h => h) hsecond)

lemma Asks.handsOut (hasks : Asks lay orders peerHaves room pm blocks pm') (h : pm.Ok) :
    HandsOut lay room pm blocks pm' := by
  induction hasks with
  | done => exact .nil h _
  | @old room pieceIdx pm pm' piece piece' blocks more _ _ hl hloop _ ih =>
    have hout := handsOut_requestLoop h (h pieceIdx piece hl) (fun o => mem_requested_iff hl) hloop
    exact hout.append (ih hout.ok)
  | @new room pieceIdx pm pm' piece' blocks more _ _ hin hloop _ ih =>
    have hl : pm.partialPieces.lookup pieceIdx = none := AList.lookup_eq_none.2 hin
    have hreq : ∀ o, (pieceIdx, o) ∈ pm.requested lay ↔ o ∈ (Piece.ofIdx lay pieceIdx).requested lay := by
      intro o
      rw [Piece.requested_ofIdx]
      simp [requested, hl]
    have hout := handsOut_requestLoop h (Piece.ofIdx_ok lay pieceIdx) hreq hloop
    exact hout.append (ih hout.ok)

theorem getPendingBlocks_handsOut (h : pm.Ok)
    (hrun : getPendingBlocks lay orders pm peerHaves room = some (blocks, pm')) : HandsOut lay room pm blocks pm' :=
  (getPendingBlocks_asks hrun).handsOut h

/-- The block of a requested offset, as its piece records it. -/
lemma state_of_requested {piece : Piece} (hl : pm.partialPieces.lookup k.1 = some piece)
    (hk : k ∈ pm.requested lay) :
    piece.states[k.2 / lay.blockSize]? = some .REQUESTED ∧ k.2 / lay.blockSize * lay.blockSize = k.2 := by
  obtain ⟨b, hb, ho⟩ := (mem_requested_iff hl).1 hk
  have hdiv : k.2 / lay.blockSize = b := by
    rw [ho]
    exact Nat.mul_div_cancel _ lay.blockSize_pos
  rw [hdiv]
  exact ⟨hb, ho.symm⟩

/-- One piece loses a requested block; the others are as they were. -/
lemma requested_insert_of_sdiff {piece piece' : Piece} (hl : pm.partialPieces.lookup k.1 = some piece)
    (hp' : piece'.requested lay = piece.requested lay \ {k.2}) (haves : Finset Nat) :
    requested lay ⟨haves, pm.partialPieces.insert k.1 piece'⟩ = pm.requested lay \ {k} := by
  ext ⟨idx, o⟩
  rw [mem_requested_insert, Set.mem_sdiff, Set.mem_singleton_iff, Prod.ext_iff]
  split
  · rename_i hidx
    simp only at hidx
    subst hidx
    rw [hp', Set.mem_sdiff, Set.mem_singleton_iff, mem_requested_iff hl]
    simp
  · rename_i hidx
    simp only at hidx
    simp [hidx]

/-- A piece without requested blocks besides the one that goes may be dropped. -/
lemma requested_erase_of_sdiff {piece : Piece} (hl : pm.partialPieces.lookup k.1 = some piece)
    (hnone : piece.requested lay \ {k.2} = ∅) (haves : Finset Nat) :
    requested lay ⟨haves, pm.partialPieces.erase k.1⟩ = pm.requested lay \ {k} := by
  ext ⟨idx, o⟩
  rw [mem_requested_erase, Set.mem_sdiff, Set.mem_singleton_iff, Prod.ext_iff]
  by_cases hidx : idx = k.1
  · subst hidx
    have hmem : o ∈ piece.requested lay → o = k.2 := by
      intro ho
      by_contra hne
      exact Set.eq_empty_iff_forall_notMem.1 hnone o ⟨ho, hne⟩
    simp only [ne_eq, not_true, false_and, true_and, false_iff, not_and, not_not]
    intro ho
    exact hmem ((mem_requested_iff hl).1 ho)
  · simp [hidx]

lemma requested_eq_empty {piece : Piece} (h : piece.states.count .REQUESTED = 0) : piece.requested lay = ∅ := by
  rw [Set.eq_empty_iff_forall_notMem]
  rintro o ⟨b, hb, -⟩
  exact List.count_eq_zero.1 h (List.mem_of_getElem? hb)

theorem clearInTransitBlock_spec (h : pm.Ok) (hk : k ∈ pm.requested lay)
    (hrun : pm.clearInTransitBlock lay k.1 k.2 = some pm') : pm'.Ok ∧ pm'.requested lay = pm.requested lay \ {k} := by
  have ⟨piece, hl, _⟩ := hk
  obtain ⟨hb, ho⟩ := state_of_requested hl hk
  have hlt := (List.getElem?_eq_some_iff.1 hb).1
  let piece' : Piece := { piece with
    states := piece.states.set (k.2 / lay.blockSize) .PENDING
    requestedBlocks := decr16 piece.requestedBlocks }
  have hp' : piece'.Ok := (h k.1 piece hl).move hb piece' (by decide) rfl rfl (by simp [piece']) (by simp [piece'])
  have hset : piece'.requested lay = piece.requested lay \ {k.2} := by
    rw [Piece.requested_set_of_ne (by decide) hlt piece' rfl, ho]
  have hrun' : (if piece'.requestedBlocks = 0 ∧ piece'.completedBlocks = 0 then
      some { pm with partialPieces := pm.partialPieces.erase k.1 }
      else some { pm with partialPieces := pm.partialPieces.insert k.1 piece' }) = some pm' := by
    rw [← hrun, clearInTransitBlock, hl]
    change _ = if _ then none else _
    rw [if_neg (not_le.2 hlt)]
    rfl
  split at hrun'
  · rename_i hzero
    obtain rfl := Option.some.inj hrun'
    refine ⟨h.erase _ _, requested_erase_of_sdiff hl ?_ _⟩
    rw [← hset]
    exact requested_eq_empty (hp'.requestedBlocks ▸ hzero.1)
  · obtain rfl := Option.some.inj hrun'
    exact ⟨h.insert hp' _, requested_insert_of_sdiff hl hset _⟩

theorem onPeerReset_spec {keys : List (Nat × Nat)} (h : pm.Ok) (hnodup : keys.Nodup)
    (hkeys : ∀ k ∈ keys, k ∈ pm.requested lay) (hrun : onPeerReset lay keys pm = some pm') :
    pm'.Ok ∧ pm'.requested lay = pm.requested lay \ {k | k ∈ keys} := by
  induction keys generalizing pm with
  | nil =>
    obtain rfl : pm = pm' := by simpa [onPeerReset] using hrun
    simp [h]
  | cons k rest ih =>
    rw [List.nodup_cons] at hnodup
    cases hclear : pm.clearInTransitBlock lay k.1 k.2 with
    | none => simp [onPeerReset, hclear] at hrun
    | some pm₁ =>
      obtain ⟨hok, hset⟩ := clearInTransitBlock_spec h (hkeys k (List.mem_cons_self ..)) hclear
      have hrest : onPeerReset lay rest pm₁ = some pm' := by simpa [onPeerReset, hclear] using hrun
      have hkeys' : ∀ k' ∈ rest, k' ∈ pm₁.requested lay := by
        intro k' hk'
        rw [hset]
        refine ⟨hkeys k' (List.mem_cons_of_mem _ hk'), ?_⟩
        rintro rfl
        exact hnodup.1 hk'
      obtain ⟨hok', hset'⟩ := ih hok hnodup.2 hkeys' hrest
      refine ⟨hok', ?_⟩
      rw [hset', hset, Set.sdiff_sdiff]
      congr 1
      ext k'
      exact List.mem_cons.symm

theorem onBlockReceived_spec {payload beyond : Bytes} {ready : Option Bytes} (h : pm.Ok) (hk : k ∈ pm.requested lay)
    (hrun : pm.onBlockReceived lay k.1 k.2 payload beyond = some (ready, pm')) :
    pm'.Ok ∧ pm'.requested lay = pm.requested lay \ {k} := by
  have ⟨piece, hl, _⟩ := hk
  obtain ⟨hb, ho⟩ := state_of_requested hl hk
  have hlt := (List.getElem?_eq_some_iff.1 hb).1
  cases hwrite : piece.writeBlock lay k.2 payload beyond with
  | none => simp [onBlockReceived, hl, hwrite] at hrun
  | some piece' =>
    have hp : piece.Ok := h k.1 piece hl
    have hstates : piece'.states = piece.states.set (k.2 / lay.blockSize) .DONE ∧ piece'.Ok := by
      unfold Piece.writeBlock at hwrite
      split at hwrite
      · cases hwrite
      · split at hwrite
        · cases hwrite
        · obtain rfl := Option.some.inj hwrite
          exact ⟨rfl, hp.move hb _ (by decide) rfl rfl (by simp) (by simp)⟩
    obtain ⟨hstates, hp'⟩ := hstates
    have hset : piece'.requested lay = piece.requested lay \ {k.2} := by
      rw [Piece.requested_set_of_ne (by decide) hlt piece' hstates, ho]
    simp only [onBlockReceived, hl, hwrite, Option.bind_eq_bind, Option.bind_some] at hrun
    split at hrun
    · rename_i hall
      have hdone : piece'.states.count .REQUESTED = 0 := by
        have hcount : piece'.states.count .DONE = piece'.states.length := by
          rw [← hp'.completedBlocks, hp'.length, hall]
        refine List.count_eq_zero.2 fun hmem => ?_
        cases List.count_eq_length.1 hcount _ hmem
      have hnone : piece.requested lay \ {k.2} = ∅ := hset ▸ requested_eq_empty hdone
      cases hcheck : checkPiece lay k.1 piece' with
      | none => simp [hcheck] at hrun
      | some ready' =>
        simp only [hcheck, Option.bind_some] at hrun
        obtain ⟨-, rfl⟩ := Prod.mk.inj (Option.some.inj hrun)
        exact ⟨h.erase _ _, requested_erase_of_sdiff hl hnone _⟩
    · obtain ⟨-, rfl⟩ := Prod.mk.inj (Option.some.inj hrun)
      exact ⟨h.insert hp' _, requested_insert_of_sdiff hl hset _⟩

end PieceManager

end CppExperiments.Torrent
