import CppExperiments.Torrent.Pieces
import Mathlib.Logic.Relation

/-!
# Sessions of the piece manager

Runs of calls to the piece manager by callers that receive or give back a block only while it is out. The
counters count, no block is out twice, and a piece that is finished is checked against its hash as a whole.
-/

namespace CppExperiments.Torrent

open PieceManager (Orders)

variable {lay : Layout}

inductive Call where
  | getPendingBlocks (orders : Orders) (peerHaves : Finset Nat) (count : Nat)
  | onBlockReceived (k : Nat × Nat) (payload beyond : Bytes)
  | onPeerReset (keys : List (Nat × Nat))

/-- The piece manager, the blocks that are out, and the bytes received last for each block. -/
structure Session where
  pm : PieceManager
  out : Set (Nat × Nat)
  data : Nat × Nat → Bytes

namespace Session

variable {s s' : Session} {c : Call} {k : Nat × Nat} {payload beyond : Bytes}

def start (haves : Finset Nat) : Session := ⟨⟨haves, ∅⟩, ∅, fun _ => []⟩

/-- The bytes received for a block are noted. -/
def note (lay : Layout) (s : Session) (k : Nat × Nat) (payload beyond : Bytes) : Nat × Nat → Bytes :=
  Function.update s.data k (blockBytes lay k payload beyond)

/-- A call that does not throw, of a block that is out where it is received or given back. -/
inductive Step (lay : Layout) (s : Session) : Call → Session → Prop where
  | getPendingBlocks {orders : Orders} {peerHaves : Finset Nat} {count : Nat} {blocks : List PieceBlock}
      {pm : PieceManager} (hrun : s.pm.getPendingBlocks lay orders peerHaves count = some (blocks, pm)) :
      Step lay s (.getPendingBlocks orders peerHaves count) ⟨pm, s.out ∪ {k | k ∈ blocks.map PieceBlock.key}, s.data⟩
  | onBlockReceived {k : Nat × Nat} {payload beyond : Bytes} {ready : Option Bytes} {pm : PieceManager}
      (hk : k ∈ s.out) (hread : Readable lay k payload beyond)
      (hrun : s.pm.onBlockReceived lay k.1 k.2 payload beyond = some (ready, pm)) :
      Step lay s (.onBlockReceived k payload beyond) ⟨pm, s.out \ {k}, s.note lay k payload beyond⟩
  | onPeerReset {keys : List (Nat × Nat)} {pm : PieceManager} (hnodup : keys.Nodup) (hkeys : ∀ k ∈ keys, k ∈ s.out)
      (hrun : PieceManager.onPeerReset lay keys s.pm = some pm) :
      Step lay s (.onPeerReset keys) ⟨pm, s.out \ {k | k ∈ keys}, s.data⟩

def Reached (lay : Layout) (haves : Finset Nat) (s : Session) : Prop :=
  Relation.ReflTransGen (fun s s' => ∃ c, Step lay s c s') (start haves) s

/-- The received blocks of a piece, put together in their order. -/
def content (lay : Layout) (data : Nat × Nat → Bytes) (pieceIdx : Nat) : Bytes :=
  (List.range (lay.blocksOf pieceIdx)).flatMap (fun b => data (pieceIdx, b * lay.blockSize))

/-- The block is the last of its piece to come in. -/
def Completes (lay : Layout) (s : Session) (k : Nat × Nat) : Prop :=
  ∃ p, s.pm.partialPieces.lookup k.1 = some p ∧
    ∀ b < lay.blocksOf k.1, b * lay.blockSize ≠ k.2 → p.states[b]? = some .DONE

/-- Whoever has the piece is asked for all its blocks in turn, as far as there is room. -/
def Requestable (lay : Layout) (pm : PieceManager) (pieceIdx : Nat) : Prop :=
  ∀ (orders : Orders) (peerHaves : Finset Nat) (count : Nat), orders.Valid pm peerHaves → pieceIdx ∈ peerHaves →
    ∃ blocks pm' before later, pm.getPendingBlocks lay orders peerHaves count = some (blocks, pm') ∧
      blocks.map PieceBlock.key = (before ++
        (List.range (lay.blocksOf pieceIdx)).map (fun b => (pieceIdx, b * lay.blockSize)) ++ later).take count

/-- What the code relies on in every state. -/
structure Inv (lay : Layout) (s : Session) : Prop where
  ok : s.pm.Ok
  out : s.out = s.pm.requested lay
  pieces : ∀ idx p, s.pm.partialPieces.lookup idx = some p → p.Holds lay idx s.data ∧ idx ∉ s.pm.haves

lemma start_inv (lay : Layout) (haves : Finset Nat) : (start haves).Inv lay where
  ok := by
    intro idx p hl
    simp [start] at hl
  out := by
    ext k
    simp [start, PieceManager.requested]
  pieces := by
    intro idx p hl
    simp [start] at hl

lemma lasting (h : lay.FewBlocks) (haves : Finset Nat) (data : Nat × Nat → Bytes) :
    PieceManager.Lasting lay haves (fun idx p => p.Holds lay idx data ∧ idx ∉ haves) where
  new idx hidx := ⟨Piece.ofIdx_holds h idx data, hidx⟩
  mark idx p b hp _ := ⟨hp.1.set (s := .REQUESTED) (by decide) _ rfl rfl rfl rfl, hp.2⟩

theorem Inv.getPendingBlocks (hfew : lay.FewBlocks) (h : s.Inv lay) {orders : Orders} {peerHaves : Finset Nat}
    {count : Nat} {blocks : List PieceBlock} {pm : PieceManager}
    (hrun : s.pm.getPendingBlocks lay orders peerHaves count = some (blocks, pm)) :
    Inv lay ⟨pm, s.out ∪ {k | k ∈ blocks.map PieceBlock.key}, s.data⟩ := by
  have hout := PieceManager.getPendingBlocks_handsOut h.ok hrun
  have hlasts := (lasting hfew s.pm.haves s.data).getPendingBlocks h.pieces hrun
  refine ⟨hout.ok, ?_, ?_⟩
  · rw [h.out]
    exact hout.requested.symm
  · intro idx p hl
    rw [show pm.haves = s.pm.haves from hlasts.haves]
    exact hlasts.pieces idx p hl

/-! ## Blocks given back -/

/-- A block that is out is given back without fault, and only its own piece is changed. -/
lemma clearInTransitBlock_eq {pm : PieceManager} (hk : k ∈ pm.requested lay) :
    ∃ piece pm', pm.partialPieces.lookup k.1 = some piece ∧ pm.clearInTransitBlock lay k.1 k.2 = some pm' ∧
      pm'.haves = pm.haves ∧ ∀ idx q, pm'.partialPieces.lookup idx = some q → pm.partialPieces.lookup idx = some q ∨
        idx = k.1 ∧ q = { piece with
          states := piece.states.set (k.2 / lay.blockSize) .PENDING
          requestedBlocks := decr16 piece.requestedBlocks } := by
  have ⟨piece, hl, _⟩ := hk
  obtain ⟨hb, -⟩ := PieceManager.state_of_requested hl hk
  have hlt := (List.getElem?_eq_some_iff.1 hb).1
  let piece' : Piece := { piece with
    states := piece.states.set (k.2 / lay.blockSize) .PENDING
    requestedBlocks := decr16 piece.requestedBlocks }
  have hrun : pm.clearInTransitBlock lay k.1 k.2 =
      if piece'.requestedBlocks = 0 ∧ piece'.completedBlocks = 0
      then some { pm with partialPieces := pm.partialPieces.erase k.1 }
      else some { pm with partialPieces := pm.partialPieces.insert k.1 piece' } := by
    rw [PieceManager.clearInTransitBlock, hl]
    change (if _ then none else _) = _
    rw [if_neg (not_le.2 hlt)]
    rfl
  by_cases hzero : piece'.requestedBlocks = 0 ∧ piece'.completedBlocks = 0
  · rw [if_pos hzero] at hrun
    refine ⟨piece, _, hl, hrun, rfl, ?_⟩
    intro idx q hq
    by_cases hidx : idx = k.1
    · subst hidx
      simp at hq
    · exact Or.inl (by rwa [AList.lookup_erase_ne hidx] at hq)
  · rw [if_neg hzero] at hrun
    refine ⟨piece, _, hl, hrun, rfl, ?_⟩
    intro idx q hq
    by_cases hidx : idx = k.1
    · subst hidx
      rw [AList.lookup_insert] at hq
      exact Or.inr ⟨rfl, (Option.some.inj hq).symm⟩
    · exact Or.inl (by rwa [AList.lookup_insert_ne hidx] at hq)

theorem Inv.onPeerReset (h : s.Inv lay) {keys : List (Nat × Nat)} (hnodup : keys.Nodup)
    (hkeys : ∀ k ∈ keys, k ∈ s.out) :
    ∃ pm, PieceManager.onPeerReset lay keys s.pm = some pm ∧ pm.haves = s.pm.haves ∧
      Inv lay ⟨pm, s.out \ {k | k ∈ keys}, s.data⟩ := by
  induction keys generalizing s with
  | nil => exact ⟨s.pm, rfl, rfl, by simpa using h⟩
  | cons k rest ih =>
    rw [List.nodup_cons] at hnodup
    rw [List.forall_mem_cons, h.out] at hkeys
    obtain ⟨piece, pm₁, hl, hclear, hhaves, hpieces⟩ := clearInTransitBlock_eq hkeys.1
    obtain ⟨hok, hset⟩ := PieceManager.clearInTransitBlock_spec h.ok hkeys.1 hclear
    have hinv : Inv lay ⟨pm₁, s.out \ {k}, s.data⟩ := by
      refine ⟨hok, by rw [h.out]; exact hset.symm, ?_⟩
      intro idx q hq
      rw [show pm₁.haves = s.pm.haves from hhaves]
      rcases hpieces idx q hq with hq | ⟨rfl, rfl⟩
      · exact h.pieces idx q hq
      · obtain ⟨hp, hnot⟩ := h.pieces k.1 piece hl
        exact ⟨hp.set (s := .PENDING) (by decide) _ rfl rfl rfl rfl, hnot⟩
    obtain ⟨pm, hrest, hhaves', hinv'⟩ := ih hinv hnodup.2 (by
      intro k' hk'
      refine ⟨by rw [h.out]; exact hkeys.2 k' hk', ?_⟩
      rintro rfl
      exact hnodup.1 hk')
    refine ⟨pm, by simpa [PieceManager.onPeerReset, hclear] using hrest, hhaves'.trans hhaves, ?_⟩
    have hsets : s.out \ {k' | k' ∈ k :: rest} = (s.out \ {k}) \ {k' | k' ∈ rest} := by
      rw [Set.sdiff_sdiff]
      congr 1
      ext k'
      exact List.mem_cons
    rw [hsets]
    exact hinv'

/-! ## Blocks received -/

lemma mem_data_ne {data : Nat × Nat → Bytes} {bytes : Bytes} {idx o : Nat} (h : idx ≠ k.1) :
    Function.update data k bytes (idx, o) = data (idx, o) :=
  Function.update_of_ne (fun heq => h (congrArg Prod.fst heq)) _ _

/-- A piece whose blocks are all done holds what was received for them. -/
lemma buffer_eq_content {data : Nat × Nat → Bytes} {p : Piece} {pieceIdx : Nat} (h : p.Holds lay pieceIdx data)
    (hdone : ∀ b < lay.blocksOf pieceIdx, p.states[b]? = some .DONE) :
    p.buffer.take p.actualPieceSize = content lay data pieceIdx := by
  have hle := lay.actualPieceSize_le_blocks pieceIdx
  have hlen : (p.buffer.take p.actualPieceSize).length ≤ lay.blocksOf pieceIdx * lay.blockSize := by
    rw [List.length_take, h.size]
    omega
  rw [← flatMap_tile hlen, content]
  apply List.flatMap_congr
  intro b hb
  exact h.done b (hdone b (List.mem_range.1 hb))

/-- All blocks are done exactly when their number is the number of blocks. -/
lemma completedBlocks_eq_iff {p : Piece} {pieceIdx : Nat} {data : Nat × Nat → Bytes} (hok : p.Ok)
    (h : p.Holds lay pieceIdx data) :
    p.completedBlocks = p.actualNumBlocks ↔ ∀ b < lay.blocksOf pieceIdx, p.states[b]? = some .DONE := by
  rw [hok.completedBlocks, ← hok.length, List.count_eq_length, ← h.blocks, ← hok.length]
  constructor
  · intro hall b hb
    rw [List.getElem?_eq_getElem hb]
    exact congrArg some (hall _ (List.getElem_mem hb)).symm
  · intro hall s hs
    obtain ⟨b, hb, rfl⟩ := List.getElem_of_mem hs
    have hdone := hall b hb
    rw [List.getElem?_eq_getElem hb] at hdone
    exact (Option.some.inj hdone).symm

/-- The block that comes in, as its piece records it. -/
lemma Inv.received (h : s.Inv lay) (hk : k ∈ s.out) (hread : Readable lay k payload beyond) :
    ∃ p p', s.pm.partialPieces.lookup k.1 = some p ∧ p.writeBlock lay k.2 payload beyond = some p' ∧ p'.Ok ∧
      p'.Holds lay k.1 (s.note lay k payload beyond) ∧
      (p'.completedBlocks = p'.actualNumBlocks ↔ s.Completes lay k) := by
  rw [h.out] at hk
  have ⟨p, hl, _⟩ := hk
  obtain ⟨hb, ho⟩ := PieceManager.state_of_requested hl hk
  have heq : k = (k.1, k.2 / lay.blockSize * lay.blockSize) := by rw [ho]
  have hp := (h.pieces k.1 p hl).1
  obtain ⟨p', hwrite, hok', hstates, hp'⟩ := hp.writeBlock (h.ok k.1 p hl) hb (heq ▸ hread)
  rw [← heq] at hp'
  rw [ho] at hwrite
  refine ⟨p, p', hl, hwrite, hok', hp', ?_⟩
  have hlt := (List.getElem?_eq_some_iff.1 hb).1
  rw [completedBlocks_eq_iff hok' hp', hstates]
  constructor
  · intro hall
    refine ⟨p, hl, fun b hblt hne => ?_⟩
    have hdone := hall b hblt
    rwa [List.getElem?_set_ne (fun hbk => hne (by rw [← hbk, ho]))] at hdone
  · rintro ⟨q, hq, hrest⟩ b hblt
    obtain rfl := Option.some.inj (hl.symm.trans hq)
    by_cases hbk : k.2 / lay.blockSize = b
    · rw [← hbk, List.getElem?_set_self hlt]
    · rw [List.getElem?_set_ne hbk]
      refine hrest b hblt fun hb' => hbk ?_
      rw [← hb']
      exact Nat.mul_div_cancel _ lay.blockSize_pos

/-- What receiving a block comes to: a block like others, or the end of its piece. -/
theorem Inv.onBlockReceived_eq (h : s.Inv lay) (hk : k ∈ s.out) (hread : Readable lay k payload beyond) :
    (¬ s.Completes lay k → ∃ p', s.pm.onBlockReceived lay k.1 k.2 payload beyond =
      some (none, ⟨s.pm.haves, s.pm.partialPieces.insert k.1 p'⟩) ∧
      p'.Holds lay k.1 (s.note lay k payload beyond)) ∧
    (s.Completes lay k → s.pm.onBlockReceived lay k.1 k.2 payload beyond =
      (PieceManager.getPieceHash lay k.1).map fun hash =>
        if Hash.sha1 (content lay (s.note lay k payload beyond) k.1) true = hash
        then (some (content lay (s.note lay k payload beyond) k.1),
          ⟨insert k.1 s.pm.haves, s.pm.partialPieces.erase k.1⟩)
        else (none, ⟨s.pm.haves, s.pm.partialPieces.erase k.1⟩)) := by
  obtain ⟨p, p', hl, hwrite, hok', hp', hiff⟩ := h.received hk hread
  constructor
  · intro hnot
    refine ⟨p', ?_, hp'⟩
    rw [PieceManager.onBlockReceived, hl]
    simp only [Option.bind_eq_bind, Option.bind_some, hwrite, if_neg (hiff.not.2 hnot)]
    rfl
  · intro hall
    have hdone := (completedBlocks_eq_iff hok' hp').1 (hiff.2 hall)
    have hbuffer := buffer_eq_content hp' hdone
    rw [PieceManager.onBlockReceived, hl]
    simp only [Option.bind_eq_bind, Option.bind_some, hwrite, if_pos (hiff.2 hall), PieceManager.checkPiece, hbuffer]
    cases PieceManager.getPieceHash lay k.1 with
    | none => rfl
    | some hash =>
      by_cases hhash : Hash.sha1 (content lay (s.note lay k payload beyond) k.1) true = hash
      · simp [hhash]
      · simp [hhash]

theorem Inv.onBlockReceived (h : s.Inv lay) (hk : k ∈ s.out) (hread : Readable lay k payload beyond)
    {ready : Option Bytes} {pm : PieceManager}
    (hrun : s.pm.onBlockReceived lay k.1 k.2 payload beyond = some (ready, pm)) :
    Inv lay ⟨pm, s.out \ {k}, s.note lay k payload beyond⟩ := by
  obtain ⟨hok, hset⟩ := PieceManager.onBlockReceived_spec h.ok (h.out ▸ hk) hrun
  refine ⟨hok, by rw [h.out]; exact hset.symm, ?_⟩
  have hother : ∀ idx p, idx ≠ k.1 → s.pm.partialPieces.lookup idx = some p →
      p.Holds lay idx (s.note lay k payload beyond) ∧ idx ∉ s.pm.haves := by
    intro idx p hidx hl
    obtain ⟨hp, hnot⟩ := h.pieces idx p hl
    exact ⟨hp.congr fun o => mem_data_ne hidx, hnot⟩
  obtain ⟨hpart, hwhole⟩ := h.onBlockReceived_eq hk hread
  intro idx p hl
  by_cases hall : s.Completes lay k
  · have hrest : pm.partialPieces = s.pm.partialPieces.erase k.1 ∧ ∀ i ∈ pm.haves, i = k.1 ∨ i ∈ s.pm.haves := by
      rw [hwhole hall] at hrun
      obtain ⟨hash, -, hres⟩ := Option.map_eq_some_iff.1 hrun
      split at hres
      · obtain ⟨-, rfl⟩ := Prod.mk.inj hres
        exact ⟨rfl, fun i hi => Finset.mem_insert.1 hi⟩
      · obtain ⟨-, rfl⟩ := Prod.mk.inj hres
        exact ⟨rfl, fun i hi => Or.inr hi⟩
    rw [show (Session.mk pm _ _).pm = pm from rfl, hrest.1] at hl
    by_cases hidx : idx = k.1
    · subst hidx
      simp at hl
    · rw [AList.lookup_erase_ne hidx] at hl
      obtain ⟨hp, hnot⟩ := hother idx p hidx hl
      exact ⟨hp, fun hmem => (hrest.2 idx hmem).elim hidx hnot⟩
  · obtain ⟨p', hres, hp'⟩ := hpart hall
    rw [hres] at hrun
    obtain ⟨-, rfl⟩ := Prod.mk.inj (Option.some.inj hrun)
    by_cases hidx : idx = k.1
    · subst hidx
      rw [AList.lookup_insert] at hl
      obtain rfl := Option.some.inj hl
      have ⟨q, hq, _⟩ : k ∈ s.pm.requested lay := h.out ▸ hk
      exact ⟨hp', (h.pieces k.1 q hq).2⟩
    · rw [AList.lookup_insert_ne hidx] at hl
      exact hother idx p hidx hl

theorem Inv.step (hfew : lay.FewBlocks) (h : s.Inv lay) (hstep : Step lay s c s') : s'.Inv lay := by
  cases hstep with
  | getPendingBlocks hrun => exact h.getPendingBlocks hfew hrun
  | onBlockReceived hk hread hrun => exact h.onBlockReceived hk hread hrun
  | onPeerReset hnodup hkeys hrun =>
    obtain ⟨pm, hrun', -, hinv⟩ := h.onPeerReset hnodup hkeys
    obtain rfl := Option.some.inj (hrun.symm.trans hrun')
    exact hinv

theorem Reached.inv (hfew : lay.FewBlocks) {haves : Finset Nat} (h : Reached lay haves s) : s.Inv lay := by
  induction h with
  | refl => exact start_inv lay haves
  | tail _ hstep ih =>
    obtain ⟨c, hstep⟩ := hstep
    exact ih.step hfew hstep

/-! ## What the callers see -/

lemma requestable_of_new (hfew : lay.FewBlocks) {pm : PieceManager} {pieceIdx : Nat} (hhaves : pieceIdx ∉ pm.haves)
    (hpieces : pieceIdx ∉ pm.partialPieces) : Requestable lay pm pieceIdx := by
  intro orders peerHaves count horders hpeer
  obtain ⟨blocks, pm', hrun, hkeys⟩ := @PieceManager.getPendingBlocks_eq lay count pm orders peerHaves horders
  have hmem : pieceIdx ∈ orders.pieces.filter (· ∈ peerHaves) ++ orders.haves.filter (· ∉ pm.partialPieces) := by
    apply List.mem_append_right
    rw [List.mem_filter, horders.mem_haves]
    exact ⟨hpeer, decide_eq_true hpieces⟩
  obtain ⟨front, rest, hsplit⟩ := List.append_of_mem hmem
  refine ⟨blocks, pm', front.flatMap (pm.askable lay), rest.flatMap (pm.askable lay), hrun, ?_⟩
  have hall : pm.askable lay pieceIdx =
      (List.range (lay.blocksOf pieceIdx)).map (fun b => (pieceIdx, b * lay.blockSize)) := by
    simp only [PieceManager.askable, AList.lookup_eq_none.2 hpieces, if_neg hhaves, Piece.ofIdx_actualNumBlocks hfew]
  rw [hkeys, hsplit, List.flatMap_append, List.flatMap_cons, hall, List.append_assoc]

/-- The counters count, no block is handed out while it is out, and a finished piece is kept if it has the listed
hash and asked for anew if it has not. -/
structure Correct (lay : Layout) (s : Session) : Prop where
  counted : ∀ idx p, s.pm.partialPieces.lookup idx = some p →
    p.requestedBlocks = p.states.count .REQUESTED ∧ p.completedBlocks = p.states.count .DONE
  disjoint : ∀ idx ∈ s.pm.haves, idx ∉ s.pm.partialPieces
  fresh : ∀ (orders : Orders) (peerHaves : Finset Nat) (count : Nat) (blocks : List PieceBlock) (pm : PieceManager),
    s.pm.getPendingBlocks lay orders peerHaves count = some (blocks, pm) →
      (blocks.map PieceBlock.key).Nodup ∧ ∀ k ∈ blocks.map PieceBlock.key, k ∉ s.out
  enters : ∀ c s', Step lay s c s' → ∀ idx ∈ s'.pm.haves, idx ∉ s.pm.haves → ∃ k payload beyond,
    c = .onBlockReceived k payload beyond ∧ k.1 = idx ∧ s.Completes lay k ∧
    PieceManager.getPieceHash lay idx = some (Hash.sha1 (content lay s'.data idx) true) ∧
    s.pm.onBlockReceived lay k.1 k.2 payload beyond = some (some (content lay s'.data idx), s'.pm)
  ready : ∀ (k : Nat × Nat) (payload beyond bytes : Bytes) (pm : PieceManager), k ∈ s.out →
    Readable lay k payload beyond →
    s.pm.onBlockReceived lay k.1 k.2 payload beyond = some (some bytes, pm) →
      s.Completes lay k ∧ bytes = content lay (s.note lay k payload beyond) k.1 ∧
      PieceManager.getPieceHash lay k.1 = some (Hash.sha1 bytes true) ∧ pm.haves = insert k.1 s.pm.haves
  verified : ∀ (k : Nat × Nat) (payload beyond : Bytes), k ∈ s.out → Readable lay k payload beyond → s.Completes lay k →
    PieceManager.getPieceHash lay k.1 = some (Hash.sha1 (content lay (s.note lay k payload beyond) k.1) true) →
      ∃ pm, s.pm.onBlockReceived lay k.1 k.2 payload beyond =
        some (some (content lay (s.note lay k payload beyond) k.1), pm)
  failed : ∀ (k : Nat × Nat) (payload beyond hash : Bytes), k ∈ s.out → Readable lay k payload beyond →
    s.Completes lay k → PieceManager.getPieceHash lay k.1 = some hash →
    Hash.sha1 (content lay (s.note lay k payload beyond) k.1) true ≠ hash →
      ∃ pm, s.pm.onBlockReceived lay k.1 k.2 payload beyond = some (none, pm) ∧ pm.haves = s.pm.haves ∧
        k.1 ∉ pm.haves ∧ k.1 ∉ pm.partialPieces ∧ Requestable lay pm k.1
  asks : ∀ (orders : Orders) (peerHaves : Finset Nat) (count : Nat), orders.Valid s.pm peerHaves →
    s.pm.getPendingBlocks lay orders peerHaves count ≠ none
  gives : ∀ (keys : List (Nat × Nat)), keys.Nodup → (∀ k ∈ keys, k ∈ s.out) →
    ∃ pm, PieceManager.onPeerReset lay keys s.pm = some pm ∧ pm.haves = s.pm.haves
  takes : ∀ (k : Nat × Nat) (payload beyond : Bytes), k ∈ s.out → Readable lay k payload beyond →
    (s.Completes lay k → PieceManager.getPieceHash lay k.1 ≠ none) →
      s.pm.onBlockReceived lay k.1 k.2 payload beyond ≠ none

lemma Inv.notMem_haves (h : s.Inv lay) {idx : Nat} (hidx : idx ∈ s.pm.partialPieces) : idx ∉ s.pm.haves := by
  obtain ⟨p, hl⟩ := Option.isSome_iff_exists.1 (AList.lookup_isSome.2 hidx)
  exact (h.pieces idx p hl).2

lemma Inv.mem_partialPieces (h : s.Inv lay) (hk : k ∈ s.out) : k.1 ∈ s.pm.partialPieces := by
  have ⟨p, hl, _⟩ : k ∈ s.pm.requested lay := h.out ▸ hk
  exact AList.lookup_isSome.1 (by rw [hl]; rfl)

/-- A piece that is returned is complete and has the listed hash. -/
lemma Inv.ready (h : s.Inv lay) (hk : k ∈ s.out) (hread : Readable lay k payload beyond) {bytes : Bytes}
    {pm : PieceManager} (hrun : s.pm.onBlockReceived lay k.1 k.2 payload beyond = some (some bytes, pm)) :
    s.Completes lay k ∧ bytes = content lay (s.note lay k payload beyond) k.1 ∧
      PieceManager.getPieceHash lay k.1 = some (Hash.sha1 bytes true) ∧ pm.haves = insert k.1 s.pm.haves := by
  obtain ⟨hpart, hwhole⟩ := h.onBlockReceived_eq hk hread
  by_cases hall : s.Completes lay k
  · rw [hwhole hall] at hrun
    obtain ⟨hash, hhash, hres⟩ := Option.map_eq_some_iff.1 hrun
    split at hres
    · rename_i heq
      obtain ⟨hbytes, rfl⟩ := Prod.mk.inj hres
      obtain rfl := Option.some.inj hbytes
      exact ⟨hall, rfl, by rw [hhash, heq], rfl⟩
    · cases (Prod.mk.inj hres).1
  · obtain ⟨p', hres, -⟩ := hpart hall
    rw [hres] at hrun
    cases (Prod.mk.inj (Option.some.inj hrun)).1

/-- Only a piece that is returned enters `haves`. -/
lemma Inv.not_ready (h : s.Inv lay) (hk : k ∈ s.out) (hread : Readable lay k payload beyond) {pm : PieceManager}
    (hrun : s.pm.onBlockReceived lay k.1 k.2 payload beyond = some (none, pm)) : pm.haves = s.pm.haves := by
  obtain ⟨hpart, hwhole⟩ := h.onBlockReceived_eq hk hread
  by_cases hall : s.Completes lay k
  · rw [hwhole hall] at hrun
    obtain ⟨hash, -, hres⟩ := Option.map_eq_some_iff.1 hrun
    split at hres
    · cases (Prod.mk.inj hres).1
    · exact (congrArg PieceManager.haves (Prod.mk.inj hres).2).symm
  · obtain ⟨p', hres, -⟩ := hpart hall
    rw [hres] at hrun
    exact (congrArg PieceManager.haves (Prod.mk.inj (Option.some.inj hrun)).2).symm

lemma Inv.enters (hfew : lay.FewBlocks) (h : s.Inv lay) (hstep : Step lay s c s') {idx : Nat} (hin : idx ∈ s'.pm.haves)
    (hout : idx ∉ s.pm.haves) : ∃ k payload beyond, c = .onBlockReceived k payload beyond ∧ k.1 = idx ∧
      s.Completes lay k ∧ PieceManager.getPieceHash lay idx = some (Hash.sha1 (content lay s'.data idx) true) ∧
      s.pm.onBlockReceived lay k.1 k.2 payload beyond = some (some (content lay s'.data idx), s'.pm) := by
  cases hstep with
  | getPendingBlocks hrun =>
    have hhaves := ((lasting hfew s.pm.haves s.data).getPendingBlocks h.pieces hrun).haves
    exact absurd (hhaves ▸ hin) hout
  | onPeerReset hnodup hkeys hrun =>
    obtain ⟨pm, hrun', hhaves, -⟩ := h.onPeerReset hnodup hkeys
    obtain rfl := Option.some.inj (hrun.symm.trans hrun')
    exact absurd (hhaves ▸ hin) hout
  | @onBlockReceived k payload beyond ready pm hk hread hrun =>
    cases ready with
    | none => exact absurd (h.not_ready hk hread hrun ▸ hin) hout
    | some bytes =>
      obtain ⟨hall, rfl, hhash, hhaves⟩ := h.ready hk hread hrun
      have hidx : idx ∈ insert k.1 s.pm.haves := hhaves ▸ hin
      obtain rfl := (Finset.mem_insert.1 hidx).resolve_right hout
      exact ⟨k, payload, beyond, rfl, rfl, hall, hhash, hrun⟩

lemma Inv.failed (hfew : lay.FewBlocks) (h : s.Inv lay) (hk : k ∈ s.out) (hread : Readable lay k payload beyond)
    (hall : s.Completes lay k) {hash : Bytes} (hhash : PieceManager.getPieceHash lay k.1 = some hash)
    (hne : Hash.sha1 (content lay (s.note lay k payload beyond) k.1) true ≠ hash) :
    ∃ pm, s.pm.onBlockReceived lay k.1 k.2 payload beyond = some (none, pm) ∧ pm.haves = s.pm.haves ∧
      k.1 ∉ pm.haves ∧ k.1 ∉ pm.partialPieces ∧ Requestable lay pm k.1 := by
  have hrun := (h.onBlockReceived_eq hk hread).2 hall
  rw [hhash, Option.map_some, if_neg hne] at hrun
  have hout := h.notMem_haves (h.mem_partialPieces hk)
  have hgone : k.1 ∉ s.pm.partialPieces.erase k.1 := by simp
  exact ⟨_, hrun, rfl, hout, hgone, requestable_of_new hfew hout hgone⟩

lemma Inv.takes (h : s.Inv lay) (hk : k ∈ s.out) (hread : Readable lay k payload beyond)
    (hlisted : s.Completes lay k → PieceManager.getPieceHash lay k.1 ≠ none) :
    s.pm.onBlockReceived lay k.1 k.2 payload beyond ≠ none := by
  obtain ⟨hpart, hwhole⟩ := h.onBlockReceived_eq hk hread
  by_cases hall : s.Completes lay k
  · rw [hwhole hall, ne_eq, Option.map_eq_none_iff]
    exact hlisted hall
  · obtain ⟨p', hres, -⟩ := hpart hall
    rw [hres]
    exact Option.some_ne_none _

/-- Over every sequence of calls: the counters count, no block is out twice, the finished and the unfinished pieces
are disjoint, and a piece is taken over as the concatenation of its blocks exactly if that has the listed hash. -/
theorem correct_of_reached (hfew : lay.FewBlocks) {haves : Finset Nat} (h : Reached lay haves s) : s.Correct lay := by
  have hinv := h.inv hfew
  constructor
  · intro idx p hl
    exact ⟨(hinv.ok idx p hl).requestedBlocks, (hinv.ok idx p hl).completedBlocks⟩
  · intro idx hidx hmem
    exact hinv.notMem_haves hmem hidx
  · intro orders peerHaves count blocks pm hrun
    have hout := PieceManager.getPendingBlocks_handsOut hinv.ok hrun
    rw [hinv.out]
    exact ⟨hout.nodup, hout.fresh⟩
  · intro c s' hstep idx hin hout
    exact hinv.enters hfew hstep hin hout
  · intro k payload beyond bytes pm hk hread hrun
    exact hinv.ready hk hread hrun
  · intro k payload beyond hk hread hall hhash
    rw [(hinv.onBlockReceived_eq hk hread).2 hall, hhash, Option.map_some, if_pos rfl]
    exact ⟨_, rfl⟩
  · intro k payload beyond hash hk hread hall hhash hne
    exact hinv.failed hfew hk hread hall hhash hne
  · intro orders peerHaves count horders
    obtain ⟨blocks, pm, hrun, -⟩ := @PieceManager.getPendingBlocks_eq lay count s.pm orders peerHaves horders
    rw [hrun]
    exact Option.some_ne_none _
  · intro keys hnodup hkeys
    obtain ⟨pm, hrun, hhaves, -⟩ := hinv.onPeerReset hnodup hkeys
    exact ⟨pm, hrun, hhaves⟩
  · intro k payload beyond hk hread hlisted
    exact hinv.takes hk hread hlisted

/-- One piece of two blocks. -/
def twoBlocks : Layout := ⟨4, 4, 2, zeros 20, by decide, by decide, by decide, by decide, by decide⟩

theorem correct_of_reached_twoBlocks :
    ∃ s, Reached twoBlocks ∅ s ∧ s.out = ({(0, 0), (0, 2)} \ {(0, 2)} : Set (Nat × Nat)) ∧
    s.Correct twoBlocks := by
  have hasked : Step twoBlocks (start ∅) (.getPendingBlocks ⟨[], [0]⟩ {0} 8) _ := .getPendingBlocks rfl
  have hkeys : ∀ k : Nat × Nat, k ∈ (∅ : Set (Nat × Nat)) ∪ {k | k ∈ [((0, 0) : Nat × Nat), (0, 2)]} ↔
      k ∈ ({(0, 0), (0, 2)} : Set (Nat × Nat)) := by
    intro k
    simp
  have hread : Readable twoBlocks (0, 2) (zeros 10) [] := by
    unfold Readable
    decide
  have hfirst : Reached twoBlocks ∅ _ := Relation.ReflTransGen.single ⟨_, hasked⟩
  have hreached := hfirst.tail
    ⟨.onBlockReceived (0, 2) (zeros 10) [], .onBlockReceived ((hkeys _).2 (Or.inr rfl)) hread rfl⟩
  refine ⟨_, hreached, ?_, correct_of_reached (by unfold Layout.FewBlocks; decide) hreached⟩
  ext k
  exact and_congr_left fun _ => hkeys k

end Session

end CppExperiments.Torrent
