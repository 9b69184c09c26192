import CppExperiments.Torrent.Lines
import CppExperiments.Torrent.Pieces

/-!
# Requests that are not taken back

From the messages on its connection, the blocks that a peer was asked for and still has to send can be told apart
from the others. The pending blocks are to be these, and are, but for a peer that was silent for too long: it is
asked for its blocks again.
-/

namespace CppExperiments.Torrent

open PieceManager (Orders)

/-- The block that a request or a cancel names. -/
def blockOf (message : Bytes) : Nat × Nat := (field (message.drop 5) [] 0, field (message.drop 5) [] 4)

/-- What a message does to the blocks that the peer is asked for. -/
def track (asked : Finset (Nat × Nat)) : Entry → Finset (Nat × Nat)
  | .put message =>
    if message[4]? = some 6 then insert (blockOf message) asked
    else if message[4]? = some 8 then asked.erase (blockOf message)
    else asked
  | .got .Piece message beyond => asked.erase (field message beyond 0, field message beyond 4)
  | .got .Choke _ _ => ∅
  | .got _ _ _ => asked

/-- The blocks requested with no later cancel for the block, no block received for it and no choke since. -/
def outstanding (entries : List Entry) : Finset (Nat × Nat) := entries.foldl track ∅

/-- On every open connection the pending blocks are the outstanding ones. -/
def Agrees (o : Observed) : Prop :=
  ∀ id ctx, o.w.states.lookup id = some ctx → ctx.closed = false →
    outstanding (o.lines id).entries = ctx.pending.keys.toFinset

/-- The sweep finds the peer silent for too long while blocks are pending. -/
def Forgets (cfg : Config) (ctx : PeerContext) : Event → Prop
  | .sweep _ tick _ => TimesOut cfg ctx tick ∧ ctx.pending ≠ ∅
  | .receive _ _ _ | .message _ _ _ | .sent _ _ | .failure _ => False

/-- The event finds no peer with pending blocks that was silent for too long. -/
def OnTime (cfg : Config) (o : Observed) (e : Event) : Prop :=
  ∀ id ctx, o.w.subject e = some (id, ctx) → ¬ Forgets cfg ctx e

/-- The containers iterated hold 32-bit integers. -/
def Event.Typed : Event → Prop
  | .message _ _ orders => ∀ idx ∈ orders.pieces ++ orders.haves, idx < 2 ^ 32
  | .receive _ _ _ | .sent _ _ | .failure _ | .sweep _ _ _ => True

variable {cfg : Config} {w : World} {e : Event} {ctx ctx' : PeerContext} {dl dl' : Downloader} {line line' : Line}
  {pm pm' : PieceManager} {asked : Finset (Nat × Nat)} {blocks : List PieceBlock} {o o' : Observed}

/-! ## What the messages say -/

lemma outstanding_append (es es' : List Entry) : outstanding (es ++ es') = es'.foldl track (outstanding es) :=
  List.foldl_append

lemma blockOf_request (pIndex pBegin pLength : Nat) (cancel : Bool) :
    blockOf (buildRequest pIndex pBegin pLength cancel) = (pIndex % 2 ^ 32, pBegin % 2 ^ 32) := by
  have hfields : (buildRequest pIndex pBegin pLength cancel).drop 5 =
      beBytes 4 pIndex ++ (beBytes 4 pBegin ++ beBytes 4 pLength) := by
    rw [buildRequest, buildMessageHelper, List.append_assoc (beBytes 4 pIndex)]
    rfl
  have hpow : (256 : Nat) ^ 4 = 2 ^ 32 := by norm_num
  have hfirst : field (beBytes 4 pIndex ++ (beBytes 4 pBegin ++ beBytes 4 pLength)) [] 0 = pIndex % 2 ^ 32 := by
    rw [field, List.append_nil, List.drop_zero, List.take_left' (length_beBytes 4 pIndex), ofBeBytes_beBytes, hpow]
  have hsecond : field (beBytes 4 pIndex ++ (beBytes 4 pBegin ++ beBytes 4 pLength)) [] 4 = pBegin % 2 ^ 32 := by
    rw [field, List.append_nil, List.drop_left' (length_beBytes 4 pIndex), List.take_left' (length_beBytes 4 pBegin),
      ofBeBytes_beBytes, hpow]
  rw [blockOf, hfields, hfirst, hsecond]

lemma track_request (asked : Finset (Nat × Nat)) (blk : PieceBlock) :
    track asked (.put blk.request) = insert (blk.pieceIdx % 2 ^ 32, blk.blockOffset % 2 ^ 32) asked := by
  have hid : blk.request[4]? = some 6 := rfl
  rw [track, if_pos hid, PieceBlock.request, blockOf_request]

/-- Requests only add to the blocks that are asked for. -/
lemma foldl_track_request (blocks : List PieceBlock) (asked : Finset (Nat × Nat)) :
    ((blocks.map PieceBlock.request).map Entry.put).foldl track asked =
      asked ∪ (blocks.map (fun blk => (blk.pieceIdx % 2 ^ 32, blk.blockOffset % 2 ^ 32))).toFinset := by
  induction blocks generalizing asked with
  | nil => simp
  | cons blk rest ih =>
    rw [List.map_cons, List.map_cons, List.foldl_cons, track_request, ih, List.map_cons, List.toFinset_cons,
      Finset.insert_union, Finset.union_insert]

lemma foldl_track_request_keys (h : ∀ blk ∈ blocks, blk.pieceIdx < 2 ^ 32 ∧ blk.blockOffset < 2 ^ 32) :
    ((blocks.map PieceBlock.request).map Entry.put).foldl track asked =
      asked ∪ (blocks.map PieceBlock.key).toFinset := by
  rw [foldl_track_request]
  congr 2
  apply List.map_congr_left
  intro blk hblk
  rw [Nat.mod_eq_of_lt (h blk hblk).1, Nat.mod_eq_of_lt (h blk hblk).2]
  rfl

lemma cancels_eq (ctx : PeerContext) :
    cancels ctx = (ctx.pending.entries.map (fun e => ⟨e.1.1, e.1.2, e.2⟩ : _ → PieceBlock)).map PieceBlock.request := by
  rw [cancels, List.map_map]
  rfl

/-! ## The offsets that blocks are asked for at -/

/-- No piece in progress has more blocks than 16 bits count. -/
def PieceManager.Few (pm : PieceManager) : Prop :=
  ∀ idx p, pm.partialPieces.lookup idx = some p → p.actualNumBlocks < 2 ^ 16

namespace PieceManager

variable {lay : Layout} {pieceIdx blockOffset room : Nat} {piece : Piece} {peerHaves : Finset Nat} {orders : Orders}

lemma Few.insert (h : pm.Few) (hp : piece.actualNumBlocks < 2 ^ 16) (haves : Finset Nat) (pieceIdx : Nat) :
    Few ⟨haves, pm.partialPieces.insert pieceIdx piece⟩ :=
  forall_insert (P := fun _ p => p.actualNumBlocks < 2 ^ 16) h hp

lemma Few.erase (h : pm.Few) (haves : Finset Nat) (pieceIdx : Nat) :
    Few ⟨haves, pm.partialPieces.erase pieceIdx⟩ := by
  intro idx p hp
  by_cases hidx : idx = pieceIdx
  · subst hidx
    simp at hp
  · exact h idx p (by rwa [AList.lookup_erase_ne hidx] at hp)

lemma Few.clearInTransitBlock (h : pm.Few) (hrun : pm.clearInTransitBlock lay pieceIdx blockOffset = some pm') :
    pm'.Few := by
  unfold PieceManager.clearInTransitBlock at hrun
  cases hl : pm.partialPieces.lookup pieceIdx with
  | none => simp [hl] at hrun
  | some piece =>
    simp only [hl, Option.bind_eq_bind, Option.bind_some] at hrun
    split at hrun
    · cases hrun
    · split at hrun
      · obtain rfl := Option.some.inj hrun
        exact h.erase _ _
      · obtain rfl := Option.some.inj hrun
        refine h.insert ?_ _ _
        exact h pieceIdx piece hl

lemma Few.onPeerReset {keys : List (Nat × Nat)} (h : pm.Few) (hrun : onPeerReset lay keys pm = some pm') :
    pm'.Few := by
  induction keys generalizing pm with
  | nil => exact Option.some.inj hrun ▸ h
  | cons k rest ih =>
    cases hclear : pm.clearInTransitBlock lay k.1 k.2 with
    | none => simp [PieceManager.onPeerReset, hclear] at hrun
    | some pm₁ => exact ih (h.clearInTransitBlock hclear) (by simpa [PieceManager.onPeerReset, hclear] using hrun)

lemma writeBlock_actualNumBlocks {p p' : Piece} {payload beyond : Bytes}
    (hrun : p.writeBlock lay blockOffset payload beyond = some p') : p'.actualNumBlocks = p.actualNumBlocks := by
  unfold Piece.writeBlock at hrun
  split at hrun
  · cases hrun
  · split at hrun
    · cases hrun
    · obtain rfl := Option.some.inj hrun
      rfl

lemma Few.onBlockReceived {payload beyond : Bytes} {ready : Option Bytes} (h : pm.Few)
    (hrun : pm.onBlockReceived lay pieceIdx blockOffset payload beyond = some (ready, pm')) : pm'.Few := by
  unfold PieceManager.onBlockReceived at hrun
  cases hl : pm.partialPieces.lookup pieceIdx with
  | none => simp [hl] at hrun
  | some piece =>
    cases hwrite : piece.writeBlock lay blockOffset payload beyond with
    | none => simp [hl, hwrite] at hrun
    | some piece' =>
      have hfew : piece'.actualNumBlocks < 2 ^ 16 := writeBlock_actualNumBlocks hwrite ▸ h pieceIdx piece hl
      simp only [hl, hwrite, Option.bind_eq_bind, Option.bind_some] at hrun
      split at hrun
      · cases hcheck : checkPiece lay pieceIdx piece' with
        | none => simp [hcheck] at hrun
        | some bytes =>
          simp only [hcheck, Option.bind_some] at hrun
          obtain ⟨-, rfl⟩ := Prod.mk.inj (Option.some.inj hrun)
          exact h.erase _ _
      · obtain ⟨-, rfl⟩ := Prod.mk.inj (Option.some.inj hrun)
        exact h.insert hfew _ _

lemma few_lasting (lay : Layout) (haves : Finset Nat) : Lasting lay haves (fun _ p => p.actualNumBlocks < 2 ^ 16) where
  new := fun _ _ => Nat.mod_lt _ (by decide)
  mark := fun _ _ _ h _ => h

/-- The blocks handed out have 32-bit offsets. -/
lemma Few.getPendingBlocks (h : pm.Few) (horders : ∀ idx ∈ orders.pieces ++ orders.haves, idx < 2 ^ 32)
    (hrun : pm.getPendingBlocks lay orders peerHaves room = some (blocks, pm')) :
    pm'.Few ∧ ∀ blk ∈ blocks, blk.pieceIdx < 2 ^ 32 ∧ blk.blockOffset < 2 ^ 32 := by
  have hlasts := (few_lasting lay pm.haves).getPendingBlocks h hrun
  refine ⟨hlasts.pieces, fun blk hblk => ?_⟩
  obtain ⟨hin, p, b, hfew, hb, hoffset⟩ := hlasts.blocks blk hblk
  refine ⟨horders _ hin, ?_⟩
  have hmul : b * lay.blockSize ≤ (2 ^ 16 - 1) * (2 ^ 16 - 1) :=
    Nat.mul_le_mul (by omega) (Nat.le_sub_one_of_lt lay.blockSize_lt)
  rw [hoffset]
  omega

lemma Few.clearPendingFromPeer (h : dl.pieceManager.Few) (hrun : clearPendingFromPeer cfg ctx dl = some (ctx', dl')) :
    dl'.pieceManager.Few := by
  obtain ⟨pm, hreset, -, rfl⟩ := clearPendingFromPeer_cases hrun
  exact h.onPeerReset hreset

lemma Few.handlePiece (h : dl.pieceManager.Few) {payload beyond : Bytes}
    (hrun : handlePiece cfg payload beyond ctx dl = some (ctx', dl')) : dl'.pieceManager.Few := by
  rcases handlePiece_cases hrun with ⟨-, -, rfl⟩ | ⟨blockSize, -, -, ⟨-, rfl⟩ | ⟨ready, hrecv⟩⟩
  · exact h
  · exact h
  · exact h.onBlockReceived hrecv

lemma Few.handleMessage (h : dl.pieceManager.Few) {msgType : MsgType} {message beyond : Bytes}
    (hrun : handleMessage cfg msgType message beyond ctx dl = some (ctx', dl')) : dl'.pieceManager.Few := by
  cases msgType with
  | Piece => exact h.handlePiece hrun
  | Choke =>
    obtain ⟨ctx₁, hclear, -⟩ := handleChoke_cases hrun
    exact h.clearPendingFromPeer hclear
  | Unchoke | Have | Bitfield | Other | Unknown => exact (Prod.mk.inj (Option.some.inj hrun)).2 ▸ h

lemma Few.afterMessage (h : dl.pieceManager.Few) (horders : ∀ idx ∈ orders.pieces ++ orders.haves, idx < 2 ^ 32)
    (hrun : afterMessage cfg orders ctx dl = some (ctx', dl')) : dl'.pieceManager.Few := by
  cases afterMessage_cases hrun with
  | drops | unchoke | waits | busy => exact h
  | requests _ _ hget => exact (h.getPendingBlocks horders hget).1

lemma Few.step (h : w.downloader.pieceManager.Few) (he : e.Typed) {w' : World} (hrun : step cfg w e = some w') :
    w'.downloader.pieceManager.Few := by
  cases step_cases hrun with
  | receive | sent | failure => exact h
  | @message fd beyond orders id ctx ctx' dl hpeer hmsg =>
    obtain ⟨msgType, message, size, ctx₁, dl₁, ctx₂, hnext, hhandle, hafter, rfl⟩ := onMessage_cases hmsg
    exact (h.handleMessage hhandle).afterMessage he hafter
  | sweep hl hsweep =>
    rcases sweepPeer_cases hsweep with rfl | ⟨ctx₁, dl₁, hwait, htimeout, hrest⟩
    · exact h
    · have h₁ : dl₁.pieceManager.Few := by
        rcases timeout_cases hwait htimeout with ⟨rfl, -⟩ | ⟨cancels, hclear, -⟩
        · exact h
        · exact h.clearPendingFromPeer hclear
      rcases hrest with rfl | ⟨ctx₂, dl₂, fds, hclear, rfl⟩ | ⟨-, -, -, -, fds, rfl⟩
      · exact h₁
      · exact h₁.clearPendingFromPeer hclear
      · exact h₁

end PieceManager

/-! ## What the pending blocks are -/

lemma mem_keys_toFinset {k : Nat × Nat} : k ∈ ctx.pending.keys.toFinset ↔ k ∈ ctx.pending := by
  rw [List.mem_toFinset, AList.mem_keys]

/-- A message does to the pending blocks what it says. -/
lemma handleMessage_pending {msgType : MsgType} {message beyond : Bytes}
    (hrun : handleMessage cfg msgType message beyond ctx dl = some (ctx', dl')) :
    ctx'.pending.keys.toFinset = track ctx.pending.keys.toFinset (.got msgType message beyond) := by
  cases msgType with
  | Piece =>
    rcases handlePiece_eq hrun with ⟨rfl, hout⟩ | rfl
    · exact (Finset.erase_eq_of_notMem fun hin => hout (mem_keys_toFinset.1 hin)).symm
    · ext k
      rw [track, mem_keys_toFinset, Finset.mem_erase, mem_keys_toFinset]
      exact AList.mem_erase
  | Choke =>
    obtain ⟨ctx₁, hclear, rfl⟩ := handleChoke_cases hrun
    obtain rfl := clearPendingFromPeer_eq hclear
    rfl
  | Bitfield =>
    obtain ⟨rfl, -⟩ := Prod.mk.inj (Option.some.inj hrun)
    unfold handleBitfield
    split
    · rfl
    · rfl
  | Unchoke | Have | Other | Unknown =>
    obtain ⟨rfl, -⟩ := Prod.mk.inj (Option.some.inj hrun)
    rfl

/-- What is asked for after a message is pending, and nothing else comes to be. -/
lemma afterMessage_pending {orders : Orders} (h : dl.pieceManager.Few)
    (horders : ∀ idx ∈ orders.pieces ++ orders.haves, idx < 2 ^ 32)
    (hrun : afterMessage cfg orders ctx dl = some (ctx', dl')) :
    ctx'.pending.keys.toFinset = ((answers cfg orders ctx dl).map Entry.put).foldl track ctx.pending.keys.toFinset := by
  unfold answers
  cases afterMessage_cases hrun with
  | drops hchoked hmany =>
    rw [if_pos hchoked, if_pos hmany]
    rfl
  | unchoke hchoked hmany hsend =>
    rw [if_pos hchoked, if_neg hmany, if_pos hsend]
    rfl
  | waits hchoked hmany hsend =>
    rw [if_pos hchoked, if_neg hmany, if_neg (not_not.2 hsend)]
    rfl
  | busy hchoked hroom =>
    rw [if_neg hchoked, if_neg hroom]
    rfl
  | @requests blocks pm hchoked hroom hget =>
    rw [if_neg hchoked, if_pos hroom, hget]
    ext k
    simp only []
    rw [foldl_track_request_keys (h.getPendingBlocks horders hget).2, mem_keys_toFinset, mem_addRequests,
      Finset.mem_union, mem_keys_toFinset, List.mem_toFinset]

/-! ## Runs -/

/-- Every event keeps what is pending to what is asked for, but for a peer that is silent for too long. -/
theorem LineStep.agrees (hstep : LineStep cfg w e ctx line ctx' line') (hfew : w.downloader.pieceManager.Few)
    (he : e.Typed) (h : ctx.closed = false → outstanding line.entries = ctx.pending.keys.toFinset)
    (hkeeps : ¬ Forgets cfg ctx e) (hopen : ctx'.closed = false) :
    outstanding line'.entries = ctx'.pending.keys.toFinset := by
  cases hstep with
  | rest _ hrest =>
    obtain ⟨hopen', hpending⟩ := hrest hopen
    rw [h hopen', hpending]
  | shakes hopen' _ _ hpending =>
    rw [outstanding_append, h hopen', hpending]
    rfl
  | @message fd beyond orders msgType message size ctx ctx₁ ctx₂ dl₁ dl₂ line hnext hhandle hafter =>
    have hmsg : (Conn.mk ctx w.downloader []).HasMessage := (Conn.nextMessage_eq hnext).1
    have hfew₁ := hfew.handleMessage hhandle
    rw [outstanding_append, h hmsg.1, List.foldl_cons, ← handleMessage_pending hhandle]
    exact (afterMessage_pending hfew₁ he hafter).symm
  | sent hopen' => exact h hopen'
  | timesOut hlate =>
    have hnone : ctx.pending = ∅ := by
      by_contra hne
      exact hkeeps ⟨hlate, hne⟩
    have hcancels : cancels ctx = [] := by rw [cancels, hnone]; rfl
    rw [hcancels, List.map_nil, List.append_nil, h hlate.1, hnone]
  | reconnects _ _ hpending =>
    rw [hpending]
    rfl

/-- A peer with pending blocks that was silent for too long is asked for them once more, and they are not pending
any longer. -/
theorem not_agrees_of_forgets (h : Agrees o) (he : ¬ OnTime cfg o e) (hrun : o.step cfg e = some o') : ¬ Agrees o' := by
  unfold OnTime at he
  push Not at he
  obtain ⟨id, ctx, hsubject, hforgets⟩ := he
  obtain ⟨w', hstep, rfl⟩ := Option.map_eq_some_iff.1 hrun
  cases e with
  | receive | message | sent | failure => exact hforgets.elim
  | sweep id' tick newFd =>
    obtain ⟨hlate, hne⟩ := hforgets
    obtain ⟨ctx', hl, hid⟩ := Option.map_eq_some_iff.1 hsubject
    obtain ⟨rfl, rfl⟩ := Prod.mk.inj hid
    obtain ⟨dl, rfl⟩ := sweepPeer_timesOut hlate (by simpa [Torrent.step, hl] using hstep)
    intro hagrees
    have hafter := hagrees id' _ (lookup_put o.w id' _ dl id' |>.trans (if_pos rfl)) hlate.1
    simp only [observe, hsubject, Function.update_self, note, if_pos hlate] at hafter
    rw [outstanding_append, h id' ctx' hl hlate.1, cancels_eq, foldl_track_request] at hafter
    have hempty : ctx'.pending.keys.toFinset = ∅ := (Finset.union_eq_empty.1 hafter).1
    rw [List.toFinset_eq_empty_iff] at hempty
    exact hne (AList.ext (List.map_eq_nil_iff.1 hempty))

/-- On every run of the downloader: the pending blocks of each open connection are the blocks that were requested on
it, and neither cancelled, received nor ended by a choke since, if and only if no peer that has pending blocks is found
silent for too long. -/
theorem outstanding_iff_onTime (cfg : Config) (w : World) (events : List Event) (hstart : Initial w)
    (htyped : ∀ e ∈ events, e.Typed) :
    (∀ o ∈ visits (Observed.step cfg) (.start w) events, Agrees o) ↔
      Along (Observed.step cfg) (OnTime cfg) (.start w) events := by
  refine forall_visits_iff (I := fun o => Agrees o ∧ o.w.downloader.pieceManager.Few) (fun o h => h.1) ?_ ?_ htyped ?_
  · rintro o e o' he ⟨hagrees, hfew⟩ hgood hrun
    constructor
    · refine Observed.forall_step (P := fun ctx line => ctx.closed = false →
        outstanding line.entries = ctx.pending.keys.toFinset) hagrees ?_ hrun
      intro id ctx ctx' line' hsubject hctx hline
      exact hline.agrees hfew he hctx (hgood id ctx hsubject)
    · obtain ⟨w', hstep, rfl⟩ := Option.map_eq_some_iff.1 hrun
      exact hfew.step he hstep
  · rintro o e o' he ⟨hagrees, hfew⟩ hbad hrun
    exact not_agrees_of_forgets hagrees hbad hrun
  · constructor
    · intro id ctx hl _
      rw [(hstart.idle id ctx hl).1]
      rfl
    · intro idx p hp
      simp [Observed.start, hstart.pieces] at hp

/-- The peer has the piece, unchokes, and is then silent for six seconds after it is asked for the block. -/
def silent : List Event :=
  [.receive 3 (tiny.handshake ++ buildMessageHelper 5 4 (zeros 4) ++ buildMessageHelper 1 1 []) 1,
    .message 3 (0, []) ⟨[], [0]⟩, .message 3 (0, []) ⟨[], [0]⟩, .sweep [] 6000000001 0]

lemma typed_silent : ∀ e ∈ silent, e.Typed := by
  intro e he
  simp only [silent, List.mem_cons, List.not_mem_nil, or_false] at he
  rcases he with rfl | rfl | rfl | rfl
  all_goals simp [Event.Typed]

theorem outstanding_iff_onTime_silent :
    (∀ o ∈ visits (Observed.step tiny) (.start onePeer) silent, Agrees o) ↔
      Along (Observed.step tiny) (OnTime tiny) (.start onePeer) silent :=
  outstanding_iff_onTime tiny onePeer silent initial_onePeer typed_silent

/-- After the sweep the block was requested twice and is not pending. -/
theorem not_agrees_silent : ¬ ∀ (cfg : Config) (w : World) (events : List Event), Initial w → (∀ e ∈ events, e.Typed) →
    ∀ o ∈ visits (Observed.step cfg) (.start w) events, Agrees o := by
  intro h
  have hlast : ∃ o, o ∈ visits (Observed.step tiny) (.start onePeer) silent ∧
      (∃ ctx, o.w.states.lookup [] = some ctx ∧ ctx.closed = false ∧ ctx.pending.keys = []) ∧
      outstanding (o.lines []).entries = {(0, 0)} := by
    refine ⟨(visits (Observed.step tiny) (.start onePeer) silent).getLast (by decide), List.getLast_mem _, ?_, ?_⟩
    · exact ⟨_, rfl, rfl, rfl⟩
    · decide
  obtain ⟨o, hmem, ⟨ctx, hl, hopen, hkeys⟩, hasked⟩ := hlast
  have hagrees := h tiny onePeer silent initial_onePeer typed_silent o hmem [] ctx hl hopen
  rw [hasked, hkeys] at hagrees
  exact Finset.singleton_ne_empty _ hagrees

end CppExperiments.Torrent
