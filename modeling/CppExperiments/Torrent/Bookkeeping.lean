import CppExperiments.Lib.Ledger
import CppExperiments.Torrent.Downloader

/-!
# The bookkeeping of requested blocks

The piece manager marks blocks as requested, the contexts of the peers hold them as pending. The two
sides form a ledger, and every event keeps it balanced but two: a block of another size than was
asked for, which is forgotten on the peer's side only, and a reconnect to a peer that has pending blocks.
-/

namespace CppExperiments.Torrent

open PieceManager (Orders)

variable {cfg : Config} {w w' : World} {id : PeerID} {ctx ctx' : PeerContext} {dl dl' : Downloader}
  {held : PeerID → Set (Nat × Nat)}

/-! ## What the handlers do -/

/-- The size that was asked for, for a block that a payload answers. -/
def answered (payload beyond : Bytes) (ctx : PeerContext) : Option Nat :=
  ctx.pending.lookup (field payload beyond 0, field payload beyond 4)

lemma clearPendingFromPeer_cases (hrun : clearPendingFromPeer cfg ctx dl = some (ctx', dl')) :
    ∃ pm, PieceManager.onPeerReset cfg.layout ctx.pending.keys dl.pieceManager = some pm ∧
      ctx' = { ctx with pending := ∅, backlog := 0 } ∧ dl' = { dl with pieceManager := pm } := by
  cases hreset : PieceManager.onPeerReset cfg.layout ctx.pending.keys dl.pieceManager with
  | none => simp [clearPendingFromPeer, hreset] at hrun
  | some pm =>
    simp only [clearPendingFromPeer, hreset, Option.bind_eq_bind, Option.bind_some] at hrun
    obtain ⟨rfl, rfl⟩ := Prod.mk.inj (Option.some.inj hrun)
    exact ⟨pm, rfl, rfl, rfl⟩

lemma handleChoke_cases (hrun : handleChoke cfg ctx dl = some (ctx', dl')) :
    ∃ ctx₁, clearPendingFromPeer cfg ctx dl = some (ctx₁, dl') ∧ ctx' = { ctx₁ with choked := true } := by
  cases hclear : clearPendingFromPeer cfg ctx dl with
  | none => simp [handleChoke, hclear] at hrun
  | some r =>
    obtain ⟨ctx₁, dl₁⟩ := r
    simp only [handleChoke, hclear, Option.bind_eq_bind, Option.bind_some] at hrun
    obtain ⟨rfl, rfl⟩ := Prod.mk.inj (Option.some.inj hrun)
    exact ⟨ctx₁, rfl, rfl⟩

/-- A block that was not asked for is dropped. Any other is taken off the pending ones, and given to the piece manager
if it has the size asked for. -/
lemma handlePiece_cases {payload beyond : Bytes} (hrun : handlePiece cfg payload beyond ctx dl = some (ctx', dl')) :
    (answered payload beyond ctx = none ∧ ctx' = ctx ∧ dl' = dl) ∨
    ∃ blockSize, answered payload beyond ctx = some blockSize ∧
      ctx' = { ctx with
        pending := ctx.pending.erase (field payload beyond 0, field payload beyond 4)
        backlog := decr8 ctx.backlog } ∧
      (validBlock payload blockSize = false ∧ dl' = dl ∨ ∃ ready,
        dl.pieceManager.onBlockReceived cfg.layout (field payload beyond 0) (field payload beyond 4) payload beyond =
          some (ready, dl'.pieceManager)) := by
  unfold answered
  cases hfind : ctx.pending.lookup (field payload beyond 0, field payload beyond 4) with
  | none =>
    simp only [handlePiece, hfind] at hrun
    obtain ⟨rfl, rfl⟩ := Prod.mk.inj (Option.some.inj hrun)
    exact Or.inl ⟨rfl, rfl, rfl⟩
  | some blockSize =>
    simp only [handlePiece, hfind] at hrun
    refine Or.inr ⟨blockSize, rfl, ?_⟩
    split at hrun
    · cases hrecv : dl.pieceManager.onBlockReceived cfg.layout (field payload beyond 0) (field payload beyond 4)
          payload beyond with
      | none => simp [hrecv] at hrun
      | some r =>
        obtain ⟨ready, pm⟩ := r
        simp only [hrecv, Option.bind_eq_bind, Option.bind_some] at hrun
        cases ready with
        | none =>
          obtain ⟨rfl, rfl⟩ := Prod.mk.inj (Option.some.inj hrun)
          exact ⟨rfl, Or.inr ⟨none, rfl⟩⟩
        | some bytes =>
          obtain ⟨rfl, rfl⟩ := Prod.mk.inj (Option.some.inj hrun)
          exact ⟨rfl, Or.inr ⟨some bytes, rfl⟩⟩
    · rename_i hinvalid
      obtain ⟨rfl, rfl⟩ := Prod.mk.inj (Option.some.inj hrun)
      exact ⟨rfl, Or.inl ⟨Bool.eq_false_of_not_eq_true hinvalid, rfl⟩⟩

/-- What follows a message: the peer is dropped, asked to unchoke or for blocks, or left alone. -/
inductive Follows (cfg : Config) (orders : Orders) (ctx : PeerContext) (dl : Downloader) :
    PeerContext → Downloader → Prop where
  | drops : ctx.choked = true → (ctx.unchokeAttempts : Int) > cfg.MAX_UNCHOKE_ATTEMPTS - 1 →
      Follows cfg orders ctx dl { ctx with closed := true } dl
  | unchoke : ctx.choked = true → ¬ (ctx.unchokeAttempts : Int) > cfg.MAX_UNCHOKE_ATTEMPTS - 1 →
      ctx.sendBuffer ≠ buildUnchoke → Follows cfg orders ctx dl
        { ctx with unchokeAttempts := incr8 ctx.unchokeAttempts, sendBuffer := buildUnchoke } dl
  | waits : ctx.choked = true → ¬ (ctx.unchokeAttempts : Int) > cfg.MAX_UNCHOKE_ATTEMPTS - 1 →
      ctx.sendBuffer = buildUnchoke → Follows cfg orders ctx dl ctx dl
  | busy : ¬ ctx.choked = true → ¬ ctx.backlog < cfg.MAX_BACKLOG → Follows cfg orders ctx dl ctx dl
  | requests {blocks : List PieceBlock} {pm : PieceManager} : ¬ ctx.choked = true → ctx.backlog < cfg.MAX_BACKLOG →
      dl.pieceManager.getPendingBlocks cfg.layout orders ctx.haves (cfg.MAX_BACKLOG - ctx.backlog) =
        some (blocks, pm) →
      Follows cfg orders ctx dl (blocks.foldl addRequest ctx) { dl with pieceManager := pm }

lemma afterMessage_cases {orders : Orders} (hrun : afterMessage cfg orders ctx dl = some (ctx', dl')) :
    Follows cfg orders ctx dl ctx' dl' := by
  unfold afterMessage at hrun
  split at hrun
  · rename_i hchoked
    split at hrun
    · rename_i hmany
      obtain ⟨rfl, rfl⟩ := Prod.mk.inj (Option.some.inj hrun)
      exact .drops hchoked hmany
    · rename_i hmany
      split at hrun
      · rename_i hsend
        obtain ⟨rfl, rfl⟩ := Prod.mk.inj (Option.some.inj hrun)
        exact .unchoke hchoked hmany hsend
      · rename_i hsend
        obtain ⟨rfl, rfl⟩ := Prod.mk.inj (Option.some.inj hrun)
        exact .waits hchoked hmany (not_not.1 hsend)
  · rename_i hchoked
    split at hrun
    · rename_i hroom
      cases hget : dl.pieceManager.getPendingBlocks cfg.layout orders ctx.haves (cfg.MAX_BACKLOG - ctx.backlog) with
      | none => simp [hget] at hrun
      | some r =>
        obtain ⟨blocks, pm⟩ := r
        simp only [hget, Option.bind_eq_bind, Option.bind_some] at hrun
        obtain ⟨rfl, rfl⟩ := Prod.mk.inj (Option.some.inj hrun)
        exact .requests hchoked hroom hget
    · rename_i hroom
      obtain ⟨rfl, rfl⟩ := Prod.mk.inj (Option.some.inj hrun)
      exact .busy hchoked hroom

/-! ## The ledger -/

/-- Which blocks are requested, and which the peers hold as pending. -/
def World.ledger (cfg : Config) (w : World) : Ledger (Nat × Nat) PeerID :=
  ⟨w.downloader.pieceManager.requested cfg.layout,
    fun id => {k | ∃ ctx, w.states.lookup id = some ctx ∧ k ∈ ctx.pending}⟩

/-- Every requested block is pending at exactly one peer, every pending block is requested, and every
backlog counts the pending blocks and stays within its bound. -/
structure Consistent (cfg : Config) (w : World) : Prop where
  balanced : (w.ledger cfg).Balanced
  backlog : ∀ id ctx, w.states.lookup id = some ctx →
    ctx.backlog = ctx.pending.keys.length ∧ ctx.backlog ≤ cfg.MAX_BACKLOG

structure Inv (cfg : Config) (w : World) : Prop extends Consistent cfg w where
  pieces : w.downloader.pieceManager.Ok

/-- The invariant as a handler sees it: one context in hand, the pending blocks of the other peers fixed. -/
structure Sound (cfg : Config) (held : PeerID → Set (Nat × Nat)) (id : PeerID) (ctx : PeerContext)
    (dl : Downloader) : Prop where
  pieces : dl.pieceManager.Ok
  balanced : Ledger.Balanced ⟨dl.pieceManager.requested cfg.layout, Function.update held id {k | k ∈ ctx.pending}⟩
  backlog : ctx.backlog = ctx.pending.keys.length
  few : ctx.backlog ≤ cfg.MAX_BACKLOG

lemma Sound.congr (h : Sound cfg held id ctx dl) (ctx' : PeerContext) (hp : ctx'.pending = ctx.pending)
    (hb : ctx'.backlog = ctx.backlog) : Sound cfg held id ctx' dl := by
  constructor
  · exact h.pieces
  · rw [hp]
    exact h.balanced
  · rw [hp, hb]
    exact h.backlog
  · rw [hb]
    exact h.few

lemma Sound.pending_requested (h : Sound cfg held id ctx dl) {k : Nat × Nat} (hk : k ∈ ctx.pending) :
    k ∈ dl.pieceManager.requested cfg.layout := h.balanced.requested id k (by simpa using hk)

/-- Taking blocks off both sides. -/
lemma Sound.drop (h : Sound cfg held id ctx dl) {s : Set (Nat × Nat)} (hs : ∀ k ∈ s, k ∈ ctx.pending)
    (hok : dl'.pieceManager.Ok)
    (hreq : dl'.pieceManager.requested cfg.layout = dl.pieceManager.requested cfg.layout \ s)
    (hp : ∀ k, k ∈ ctx'.pending ↔ k ∈ ctx.pending ∧ k ∉ s) (hb : ctx'.backlog = ctx'.pending.keys.length)
    (hle : ctx'.backlog ≤ ctx.backlog) : Sound cfg held id ctx' dl' := by
  refine ⟨hok, ?_, hb, hle.trans h.few⟩
  have hdrop := h.balanced.drop (i := id) (s := s) (by simp only [Function.update_self]; exact hs)
  have hset : {k | k ∈ ctx'.pending} = {k | k ∈ ctx.pending} \ s := by
    ext k
    exact hp k
  simp only [Ledger.drop, Function.update_self, Function.update_idem] at hdrop
  rwa [← hset, ← hreq] at hdrop

theorem Sound.clearPendingFromPeer (h : Sound cfg held id ctx dl)
    (hrun : clearPendingFromPeer cfg ctx dl = some (ctx', dl')) :
    Sound cfg held id ctx' dl' ∧ ctx' = { ctx with pending := ∅, backlog := 0 } := by
  obtain ⟨pm, hreset, hctx, rfl⟩ := clearPendingFromPeer_cases hrun
  obtain ⟨hok, hset⟩ := PieceManager.onPeerReset_spec h.pieces ctx.pending.keys_nodup
    (fun k hk => h.pending_requested (AList.mem_keys.2 hk)) hreset
  refine ⟨h.drop (s := {k | k ∈ ctx.pending.keys}) (fun k hk => AList.mem_keys.2 hk) hok hset ?_ ?_ ?_, hctx⟩
  · intro k
    simp [hctx, AList.mem_keys]
  · rw [hctx]
    rfl
  · rw [hctx]
    exact Nat.zero_le _

lemma decr8_eq {n : Nat} (h : 0 < n) (h' : n < 2 ^ 8) : decr8 n = n - 1 := by
  unfold decr8
  omega

lemma incr8_eq {n : Nat} (h : n + 1 < 2 ^ 8) : incr8 n = n + 1 := Nat.mod_eq_of_lt h

lemma length_keys_erase {α : Type*} [DecidableEq α] {β : α → Type*} {s : AList β} {a : α} (h : a ∈ s) :
    (s.erase a).keys.length = s.keys.length - 1 := by
  rw [AList.keys_erase, List.length_erase_of_mem (AList.mem_keys.1 h)]

lemma keys_insert_of_notMem {α : Type*} [DecidableEq α] {β : α → Type*} {s : AList β} {a : α} (h : a ∉ s) (b : β a) :
    (s.insert a b).keys = a :: s.keys := by
  rw [AList.keys_insert, List.erase_of_not_mem fun hmem => h (AList.mem_keys.2 hmem)]

theorem Sound.handlePiece (h : Sound cfg held id ctx dl) {payload beyond : Bytes}
    (hclean : ∀ blockSize, answered payload beyond ctx = some blockSize → validBlock payload blockSize = true)
    (hrun : handlePiece cfg payload beyond ctx dl = some (ctx', dl')) : Sound cfg held id ctx' dl' := by
  rcases handlePiece_cases hrun with ⟨-, rfl, rfl⟩ | ⟨blockSize, hfind, rfl, hrest⟩
  · exact h
  · have hk : (field payload beyond 0, field payload beyond 4) ∈ ctx.pending :=
      AList.lookup_isSome.1 (by rw [answered] at hfind; rw [hfind]; rfl)
    rcases hrest with ⟨hinvalid, -⟩ | ⟨ready, hrecv⟩
    · rw [hclean blockSize hfind] at hinvalid
      cases hinvalid
    · obtain ⟨hok, hset⟩ := PieceManager.onBlockReceived_spec h.pieces (h.pending_requested hk) hrecv
      have hlen := length_keys_erase hk
      have hpos : 0 < ctx.pending.keys.length := List.length_pos_of_mem (AList.mem_keys.1 hk)
      have hback : decr8 ctx.backlog = ctx.backlog - 1 := by
        refine decr8_eq ?_ (lt_of_le_of_lt h.few cfg.backlog_lt)
        rw [h.backlog]
        exact hpos
      refine h.drop (s := {(field payload beyond 0, field payload beyond 4)}) ?_ hok hset ?_ ?_ ?_
      · rintro k rfl
        exact hk
      · intro k
        rw [AList.mem_erase, and_comm]
        rfl
      · change decr8 ctx.backlog = _
        rw [hback, hlen, h.backlog]
      · change decr8 ctx.backlog ≤ _
        rw [hback]
        exact Nat.sub_le _ _

/-- New requests are added to the pending blocks. -/
lemma mem_addRequests {blocks : List PieceBlock} {k : Nat × Nat} :
    k ∈ (blocks.foldl addRequest ctx).pending ↔ k ∈ ctx.pending ∨ k ∈ blocks.map PieceBlock.key := by
  induction blocks generalizing ctx with
  | nil => simp
  | cons blk rest ih =>
    have hmem : k ∈ (addRequest ctx blk).pending ↔ k = blk.key ∨ k ∈ ctx.pending := by
      unfold addRequest
      simp only []
      split
      · rename_i hin
        refine ⟨Or.inr, fun h => h.elim ?_ id⟩
        rintro rfl
        exact hin
      · exact AList.mem_insert _
    rw [List.foldl_cons, ih, hmem, List.map_cons, List.mem_cons]
    tauto

/-- Requests for blocks that are not pending count once each. -/
lemma addRequests_backlog {blocks : List PieceBlock} (hnodup : (blocks.map PieceBlock.key).Nodup)
    (hfresh : ∀ k ∈ blocks.map PieceBlock.key, k ∉ ctx.pending) (hb : ctx.backlog = ctx.pending.keys.length)
    (hlen : ctx.backlog + blocks.length < 2 ^ 8) :
    (blocks.foldl addRequest ctx).backlog = ctx.backlog + blocks.length ∧
    (blocks.foldl addRequest ctx).backlog = (blocks.foldl addRequest ctx).pending.keys.length := by
  induction blocks generalizing ctx with
  | nil => simp [hb]
  | cons blk rest ih =>
    rw [List.map_cons, List.nodup_cons] at hnodup
    rw [List.map_cons, List.forall_mem_cons] at hfresh
    rw [List.length_cons] at hlen
    have hkeys : (addRequest ctx blk).pending.keys = blk.key :: ctx.pending.keys := by
      rw [addRequest]
      simp only [if_neg hfresh.1]
      exact keys_insert_of_notMem hfresh.1 _
    have hback : (addRequest ctx blk).backlog = ctx.backlog + 1 := incr8_eq (by omega)
    have hfresh' : ∀ k ∈ rest.map PieceBlock.key, k ∉ (addRequest ctx blk).pending := by
      intro k hk hin
      rw [AList.mem_keys, hkeys, List.mem_cons] at hin
      rcases hin with rfl | hin
      · exact hnodup.1 hk
      · exact hfresh.2 k hk (AList.mem_keys.2 hin)
    obtain ⟨hadd, hcount⟩ := ih hnodup.2 hfresh' (by rw [hback, hkeys, List.length_cons, hb]) (by omega)
    rw [List.foldl_cons]
    exact ⟨by rw [hadd, hback, List.length_cons]; omega, hcount⟩

theorem Sound.afterMessage (h : Sound cfg held id ctx dl) {orders : Orders}
    (hrun : afterMessage cfg orders ctx dl = some (ctx', dl')) : Sound cfg held id ctx' dl' := by
  cases afterMessage_cases hrun with
  | drops => exact h.congr _ rfl rfl
  | unchoke => exact h.congr _ rfl rfl
  | waits => exact h
  | busy => exact h
  | @requests blocks pm _ hroom hget =>
    have hout := PieceManager.getPendingBlocks_handsOut h.pieces hget
    have hfew := h.few
    have hbound := cfg.backlog_lt
    have hlen := hout.length
    obtain ⟨hback, hcount⟩ := addRequests_backlog hout.nodup
      (fun k hk hin => hout.fresh k hk (h.pending_requested hin)) h.backlog (by omega)
    refine ⟨hout.ok, ?_, hcount, by omega⟩
    have htake := h.balanced.take id (s := {k | k ∈ blocks.map PieceBlock.key})
      (Set.disjoint_left.2 fun k hk hk' => hout.fresh k hk' hk)
    have hset : {k | k ∈ (blocks.foldl addRequest ctx).pending} =
        {k | k ∈ ctx.pending} ∪ {k | k ∈ blocks.map PieceBlock.key} := by
      ext k
      exact mem_addRequests
    simp only [Ledger.take, Function.update_self, Function.update_idem] at htake
    rwa [← hset, ← hout.requested] at htake

theorem Sound.handleMessage (h : Sound cfg held id ctx dl) {msgType : MsgType} {message beyond : Bytes}
    (hclean : msgType = .Piece → ∀ blockSize, answered message beyond ctx = some blockSize →
      validBlock message blockSize = true)
    (hrun : handleMessage cfg msgType message beyond ctx dl = some (ctx', dl')) : Sound cfg held id ctx' dl' := by
  cases msgType with
  | Piece => exact h.handlePiece (hclean rfl) hrun
  | Choke =>
    obtain ⟨ctx₁, hclear, rfl⟩ := handleChoke_cases hrun
    exact (h.clearPendingFromPeer hclear).1.congr _ rfl rfl
  | Unchoke | Have =>
    obtain ⟨rfl, rfl⟩ := Prod.mk.inj (Option.some.inj hrun)
    exact h.congr _ rfl rfl
  | Bitfield =>
    obtain ⟨rfl, rfl⟩ := Prod.mk.inj (Option.some.inj hrun)
    unfold handleBitfield
    split
    · exact h
    · exact h.congr _ rfl rfl
  | Other | Unknown =>
    obtain ⟨rfl, rfl⟩ := Prod.mk.inj (Option.some.inj hrun)
    exact h

/-- What one turn of the message loop does: the message handled, the peer answered, the buffer advanced. -/
lemma onMessage_cases {beyond : UInt8 × Bytes} {orders : Orders}
    (hrun : onMessage cfg beyond orders ctx dl = some (ctx', dl')) :
    ∃ msgType message size ctx₁ dl₁ ctx₂, nextMessage ctx beyond.1 = some (msgType, message, size) ∧
      handleMessage cfg msgType message beyond.2 ctx dl = some (ctx₁, dl₁) ∧
      afterMessage cfg orders ctx₁ dl₁ = some (ctx₂, dl') ∧
      ctx' = { ctx₂ with recvBuffer := ctx₂.recvBuffer.drop size } := by
  unfold onMessage at hrun
  cases hnext : nextMessage ctx beyond.1 with
  | none => simp [hnext] at hrun
  | some r =>
    obtain ⟨msgType, message, size⟩ := r
    cases hhandle : handleMessage cfg msgType message beyond.2 ctx dl with
    | none => simp [hnext, hhandle] at hrun
    | some r =>
      obtain ⟨ctx₁, dl₁⟩ := r
      cases hafter : afterMessage cfg orders ctx₁ dl₁ with
      | none => simp [hnext, hhandle, hafter] at hrun
      | some r =>
        obtain ⟨ctx₂, dl₂⟩ := r
        obtain ⟨rfl, rfl⟩ : { ctx₂ with recvBuffer := ctx₂.recvBuffer.drop size } = ctx' ∧ dl₂ = dl' := by
          simpa [hnext, hhandle, hafter] using hrun
        exact ⟨msgType, message, size, ctx₁, dl₁, ctx₂, rfl, hhandle, hafter, rfl⟩

lemma Inv.sound (h : Inv cfg w) (hl : w.states.lookup id = some ctx) :
    Sound cfg (w.ledger cfg).held id ctx w.downloader := by
  refine ⟨h.pieces, ?_, (h.backlog id ctx hl).1, (h.backlog id ctx hl).2⟩
  have hheld : (w.ledger cfg).held id = {k | k ∈ ctx.pending} := by
    ext k
    simp [World.ledger, hl]
  rw [← hheld, Function.update_eq_self]
  exact h.balanced

lemma ledger_put (w : World) (id : PeerID) (ctx : PeerContext) (dl : Downloader) :
    (w.put id ctx dl).ledger cfg =
      ⟨dl.pieceManager.requested cfg.layout, Function.update (w.ledger cfg).held id {k | k ∈ ctx.pending}⟩ := by
  unfold World.ledger World.put
  congr 1
  funext id'
  by_cases hid : id' = id
  · subst hid
    ext k
    simp
  · ext k
    simp [hid, AList.lookup_insert_ne hid]

theorem Inv.put (h : Inv cfg w) {ctx' : PeerContext} (hs : Sound cfg (w.ledger cfg).held id ctx' dl') :
    Inv cfg (w.put id ctx' dl') := by
  refine ⟨⟨?_, ?_⟩, hs.pieces⟩
  · rw [ledger_put]
    exact hs.balanced
  · intro id' ctx hl
    by_cases hid : id' = id
    · subst hid
      obtain rfl : ctx' = ctx := by simpa [World.put] using hl
      exact ⟨hs.backlog, hs.few⟩
    · exact h.backlog id' ctx (by simpa [World.put, AList.lookup_insert_ne hid] using hl)

lemma Inv.fd2PeerID (h : Inv cfg w) (fds : AList (fun _ : Int => PeerID)) : Inv cfg { w with fd2PeerID := fds } :=
  ⟨⟨h.balanced, h.backlog⟩, h.pieces⟩

/-- Whether the sweep connects anew to a peer: it is closed, or is dropped now, and has no descriptor. -/
def Reconnects (cfg : Config) (w : World) (ctx : PeerContext) (tick : Int) : Prop :=
  (ctx.closed = true ∨ ctx.choked = true ∧ ¬ diffInSec ctx tick < cfg.MAX_REQ_WAIT_TIME) ∧ ctx.fd ∉ w.fd2PeerID ∧
    diffInSec ctx tick ≥ cfg.MIN_RECON_WAIT_TIME ∧ ctx.reconnectAttempts < cfg.MAX_RECONNECT_ATTEMPTS

/-- What the test for silence leaves: the peer as it was or dropped, or its requests taken back. -/
lemma timeout_cases {tick : Int} (hwait : ¬ (ctx.closed = false ∧ diffInSec ctx tick < cfg.MAX_REQ_WAIT_TIME))
    (hrun : onTimeout cfg ctx dl = some (ctx', dl')) :
    (dl' = dl ∧ ctx' = { ctx with closed := ctx'.closed } ∧
      (ctx'.closed = true → ctx.closed = true ∨ ctx.choked = true ∧ ¬ diffInSec ctx tick < cfg.MAX_REQ_WAIT_TIME)) ∨
    (∃ cancels, clearPendingFromPeer cfg { ctx with sendBuffer := cancels } dl = some (ctx', dl') ∧
      ctx.closed = false) := by
  unfold onTimeout at hrun
  split at hrun
  · obtain ⟨rfl, rfl⟩ := Prod.mk.inj (Option.some.inj hrun)
    exact Or.inl ⟨rfl, rfl, Or.inl⟩
  · rename_i hclosed
    have hopen : ctx.closed = false := by simpa using hclosed
    split at hrun
    · rename_i hchoked
      obtain ⟨rfl, rfl⟩ := Prod.mk.inj (Option.some.inj hrun)
      exact Or.inl ⟨rfl, rfl, fun _ => Or.inr ⟨hchoked, fun hlt => hwait ⟨hopen, hlt⟩⟩⟩
    · split at hrun
      · exact Or.inr ⟨_, hrun, hopen⟩
      · obtain ⟨rfl, rfl⟩ := Prod.mk.inj (Option.some.inj hrun)
        exact Or.inl ⟨rfl, rfl, Or.inl⟩

/-- What the sweep does to a peer: nothing that the other cases do not say. -/
lemma sweepPeer_cases {tick newFd : Int} (hrun : sweepPeer cfg w id ctx tick newFd = some w') :
    w' = w ∨ ∃ ctx₁ dl₁, ¬ (ctx.closed = false ∧ diffInSec ctx tick < cfg.MAX_REQ_WAIT_TIME) ∧
      onTimeout cfg ctx w.downloader = some (ctx₁, dl₁) ∧
      (w' = w.put id ctx₁ dl₁ ∨
      (∃ ctx₂ dl₂ fds, clearPendingFromPeer cfg ctx₁ dl₁ = some (ctx₂, dl₂) ∧
        w' = { w.put id { ctx₂ with lastReadTimeStamp := tick } dl₂ with fd2PeerID := fds }) ∨
      (ctx₁.closed = true ∧ ctx₁.fd ∉ w.fd2PeerID ∧ diffInSec ctx tick ≥ cfg.MIN_RECON_WAIT_TIME ∧
        ctx₁.reconnectAttempts < cfg.MAX_RECONNECT_ATTEMPTS ∧ ∃ fds,
        w' = { w.put id { ctx₁.onReconnect newFd tick with sendBuffer := cfg.handshake } dl₁ with fd2PeerID := fds })) := by
  unfold sweepPeer at hrun
  split at hrun
  · exact Or.inl (Option.some.inj hrun).symm
  · rename_i hwait
    cases htimeout : onTimeout cfg ctx w.downloader with
    | none => simp [htimeout] at hrun
    | some r =>
      obtain ⟨ctx₁, dl₁⟩ := r
      refine Or.inr ⟨ctx₁, dl₁, hwait, rfl, ?_⟩
      simp only [htimeout, Option.bind_eq_bind, Option.bind_some] at hrun
      split at hrun
      · rename_i hclosed
        split at hrun
        · cases hclear : clearPendingFromPeer cfg ctx₁ dl₁ with
          | none => simp [hclear] at hrun
          | some r =>
            obtain ⟨ctx₂, dl₂⟩ := r
            simp only [hclear, Option.bind_some] at hrun
            exact Or.inr (Or.inl ⟨ctx₂, dl₂, _, rfl, (Option.some.inj hrun).symm⟩)
        · rename_i hfd
          split at hrun
          · rename_i hagain
            exact Or.inr (Or.inr ⟨hclosed, hfd, hagain.1, hagain.2, _, (Option.some.inj hrun).symm⟩)
          · exact Or.inl (Option.some.inj hrun).symm
      · exact Or.inl (Option.some.inj hrun).symm

/-- The two steps that keep the books: a block that answers a request has the size that was asked for, and a
peer has no pending blocks when it is connected to anew. -/
def Clean (cfg : Config) (w : World) : Event → Prop
  | .message fd beyond _ => ∀ id ctx message size, w.peer fd = some (id, ctx) →
      nextMessage ctx beyond.1 = some (.Piece, message, size) →
      ∀ blockSize, answered message beyond.2 ctx = some blockSize → validBlock message blockSize = true
  | .sweep id tick _ => ∀ ctx, w.states.lookup id = some ctx → Reconnects cfg w ctx tick → ∀ k, k ∉ ctx.pending
  | .receive _ _ _ | .sent _ _ | .failure _ => True

lemma peer_eq_some {fd : Int} (h : w.peer fd = some (id, ctx)) : w.states.lookup id = some ctx := by
  unfold World.peer at h
  cases hid : w.fd2PeerID.lookup fd with
  | none => simp [hid] at h
  | some id' =>
    cases hctx : w.states.lookup id' with
    | none => simp [hid, hctx] at h
    | some ctx' =>
      obtain ⟨rfl, rfl⟩ : id' = id ∧ ctx' = ctx := by simpa [hid, hctx] using h
      exact hctx

lemma onReceive_frame (cfg : Config) (recvBytes : Bytes) (tick : Int) (ctx : PeerContext) :
    (onReceive cfg recvBytes tick ctx).pending = ctx.pending ∧
    (onReceive cfg recvBytes tick ctx).backlog = ctx.backlog := by
  unfold onReceive
  simp only []
  split
  · split
    · exact ⟨rfl, rfl⟩
    · exact ⟨rfl, rfl⟩
  · exact ⟨rfl, rfl⟩

/-- What an event finds and leaves: it changes the context of one peer. -/
inductive Happens (cfg : Config) (w : World) : Event → World → Prop where
  | receive {fd : Int} {recvBytes : Bytes} {tick : Int} {id : PeerID} {ctx : PeerContext} :
      w.peer fd = some (id, ctx) → ctx.closed = false ∧ recvBytes ≠ [] →
      Happens cfg w (.receive fd recvBytes tick) (w.put id (onReceive cfg recvBytes tick ctx) w.downloader)
  | message {fd : Int} {beyond : UInt8 × Bytes} {orders : Orders} {id : PeerID} {ctx ctx' : PeerContext}
      {dl : Downloader} : w.peer fd = some (id, ctx) → onMessage cfg beyond orders ctx w.downloader = some (ctx', dl) →
      Happens cfg w (.message fd beyond orders) (w.put id ctx' dl)
  | sent {fd : Int} {sentBytes : Nat} {id : PeerID} {ctx : PeerContext} :
      w.peer fd = some (id, ctx) → ctx.closed = false → Happens cfg w (.sent fd sentBytes)
        (w.put id { ctx with sendBuffer := ctx.sendBuffer.drop sentBytes } w.downloader)
  | failure {fd : Int} {id : PeerID} {ctx : PeerContext} : w.peer fd = some (id, ctx) →
      Happens cfg w (.failure fd) (w.put id { ctx with closed := true } w.downloader)
  | sweep {id : PeerID} {tick newFd : Int} {ctx : PeerContext} {w' : World} : w.states.lookup id = some ctx →
      sweepPeer cfg w id ctx tick newFd = some w' → Happens cfg w (.sweep id tick newFd) w'

lemma step_cases {e : Event} (hrun : step cfg w e = some w') : Happens cfg w e w' := by
  cases e with
  | receive fd recvBytes tick =>
    obtain ⟨⟨id, ctx⟩, hpeer, hrun⟩ := Option.bind_eq_some_iff.1 hrun
    obtain ⟨hopen, hrun⟩ := Option.ite_none_right_eq_some.1 hrun
    obtain rfl := Option.some.inj hrun
    exact .receive hpeer hopen
  | message fd beyond orders =>
    obtain ⟨⟨id, ctx⟩, hpeer, hrun⟩ := Option.bind_eq_some_iff.1 hrun
    obtain ⟨⟨ctx', dl'⟩, hmsg, hrun⟩ := Option.bind_eq_some_iff.1 hrun
    obtain rfl := Option.some.inj hrun
    exact .message hpeer hmsg
  | sent fd sentBytes =>
    obtain ⟨⟨id, ctx⟩, hpeer, hrun⟩ := Option.bind_eq_some_iff.1 hrun
    obtain ⟨hopen, hrun⟩ := Option.ite_none_right_eq_some.1 hrun
    obtain rfl := Option.some.inj hrun
    exact .sent hpeer hopen
  | failure fd =>
    obtain ⟨⟨id, ctx⟩, hpeer, hrun⟩ := Option.bind_eq_some_iff.1 hrun
    obtain rfl := Option.some.inj hrun
    exact .failure hpeer
  | sweep id tick newFd =>
    obtain ⟨ctx, hl, hrun⟩ := Option.bind_eq_some_iff.1 hrun
    exact .sweep hl hrun

theorem Inv.sweepPeer (h : Inv cfg w) {tick newFd : Int} (hl : w.states.lookup id = some ctx)
    (hclean : Reconnects cfg w ctx tick → ∀ k, k ∉ ctx.pending)
    (hrun : sweepPeer cfg w id ctx tick newFd = some w') : Inv cfg w' := by
  have hs := h.sound hl
  rcases sweepPeer_cases hrun with rfl | ⟨ctx₁, dl₁, hwait, htimeout, hrest⟩
  · exact h
  · have hs₁ : Sound cfg (w.ledger cfg).held id ctx₁ dl₁ := by
      rcases timeout_cases hwait htimeout with ⟨rfl, hctx, -⟩ | ⟨cancels, hclear, -⟩
      · rw [hctx]
        exact hs.congr _ rfl rfl
      · exact (Sound.clearPendingFromPeer (hs.congr { ctx with sendBuffer := cancels } rfl rfl) hclear).1
    rcases hrest with rfl | ⟨ctx₂, dl₂, fds, hclear, rfl⟩ | ⟨hclosed, hfd, hdiff, hmore, fds, rfl⟩
    · exact h.put hs₁
    · have hs₂ := (hs₁.clearPendingFromPeer hclear).1.congr { ctx₂ with lastReadTimeStamp := tick } rfl rfl
      exact (h.put hs₂).fd2PeerID fds
    · rcases timeout_cases hwait htimeout with ⟨rfl, hctx, hdrop⟩ | ⟨cancels, hclear, hopen⟩
      · rw [hctx] at hfd hmore
        have hnone := hclean ⟨hdrop hclosed, hfd, hdiff, hmore⟩
        have hempty : {k | k ∈ ctx.pending} = {k | k ∈ (∅ : AList (fun _ : Nat × Nat => Nat))} := by
          ext k
          simp [hnone k]
        have hbalanced := hs.balanced
        rw [hempty] at hbalanced
        have hnew : Sound cfg (w.ledger cfg).held id
            { ctx₁.onReconnect newFd tick with sendBuffer := cfg.handshake } w.downloader :=
          ⟨hs.pieces, hbalanced, rfl, Nat.zero_le _⟩
        exact (h.put hnew).fd2PeerID fds
      · obtain ⟨-, hctx⟩ := Sound.clearPendingFromPeer (hs.congr { ctx with sendBuffer := cancels } rfl rfl) hclear
        rw [hctx, hopen] at hclosed
        cases hclosed

/-- Every event but the two keeps the books. -/
theorem Inv.step (h : Inv cfg w) {e : Event} (hclean : Clean cfg w e) (hrun : step cfg w e = some w') :
    Inv cfg w' := by
  cases step_cases hrun with
  | @receive fd recvBytes tick id ctx hpeer _ =>
    obtain ⟨hpending, hbacklog⟩ := onReceive_frame cfg recvBytes tick ctx
    exact h.put ((h.sound (peer_eq_some hpeer)).congr _ hpending hbacklog)
  | @message fd beyond orders id ctx ctx' dl hpeer hmsg =>
    obtain ⟨msgType, message, size, ctx₁, dl₁, ctx₂, hnext, hhandle, hafter, rfl⟩ := onMessage_cases hmsg
    have hs := (h.sound (peer_eq_some hpeer)).handleMessage
      (fun hpiece => hclean id ctx message size hpeer (hpiece ▸ hnext)) hhandle
    exact h.put ((hs.afterMessage hafter).congr _ rfl rfl)
  | sent hpeer _ => exact h.put ((h.sound (peer_eq_some hpeer)).congr _ rfl rfl)
  | failure hpeer => exact h.put ((h.sound (peer_eq_some hpeer)).congr _ rfl rfl)
  | @sweep id tick newFd ctx _ hl hsweep => exact h.sweepPeer hl (hclean ctx hl) hsweep

/-- A requested block that the peer does not hold is not handed out to it. -/
lemma afterMessage_leak {orders : Orders} {k : Nat × Nat} (hok : dl.pieceManager.Ok)
    (hk : k ∈ dl.pieceManager.requested cfg.layout) (hout : k ∉ ctx.pending)
    (hrun : afterMessage cfg orders ctx dl = some (ctx', dl')) :
    k ∈ dl'.pieceManager.requested cfg.layout ∧ k ∉ ctx'.pending := by
  cases afterMessage_cases hrun with
  | drops | unchoke | waits | busy => exact ⟨hk, hout⟩
  | @requests blocks pm _ _ hget =>
    have hgiven := PieceManager.getPendingBlocks_handsOut hok hget
    refine ⟨?_, ?_⟩
    · rw [hgiven.requested]
      exact Or.inl hk
    · intro hmem
      rcases mem_addRequests.1 hmem with hin | hin
      · exact hout hin
      · exact hgiven.fresh k hin hk

/-- A block that one peer held, that stays requested and that this peer no longer holds, is lost. -/
lemma not_consistent_put (h : Inv cfg w) (hl : w.states.lookup id = some ctx) (ctx' : PeerContext) {k : Nat × Nat}
    (hk : k ∈ ctx.pending) (hreq : k ∈ dl'.pieceManager.requested cfg.layout) (hout : k ∉ ctx'.pending)
    (fds : AList (fun _ : Int => PeerID)) : ¬ Consistent cfg { w.put id ctx' dl' with fd2PeerID := fds } := by
  intro hcons
  have hbalanced : ((w.put id ctx' dl').ledger cfg).Balanced := hcons.balanced
  rw [ledger_put] at hbalanced
  refine Ledger.not_balanced hreq ?_ hbalanced
  intro id' hmem
  by_cases hid : id' = id
  · subst hid
    simp only [Function.update_self] at hmem
    exact hout hmem
  · simp only [Function.update_of_ne hid] at hmem
    exact hid (h.balanced.unique hmem ⟨ctx, hl, hk⟩)

/-- Either of the two loses a block. -/
theorem Inv.not_consistent_step (h : Inv cfg w) {e : Event} (hclean : ¬ Clean cfg w e)
    (hrun : Torrent.step cfg w e = some w') : ¬ Consistent cfg w' := by
  cases e with
  | receive | sent | failure => exact absurd trivial hclean
  | message fd beyond orders =>
    unfold Clean at hclean
    push Not at hclean
    obtain ⟨id, ctx, message, size, hpeer, hnext, blockSize, hsize, hinvalid⟩ := hclean
    have hl := peer_eq_some hpeer
    cases hmsg : onMessage cfg beyond orders ctx w.downloader with
    | none => simp [Torrent.step, hpeer, hmsg] at hrun
    | some r =>
      obtain ⟨ctx', dl'⟩ := r
      obtain rfl : w.put id ctx' dl' = w' := by simpa [Torrent.step, hpeer, hmsg] using hrun
      obtain ⟨msgType, message', size', ctx₁, dl₁, ctx₂, hnext', hhandle, hafter, rfl⟩ := onMessage_cases hmsg
      obtain ⟨rfl, rfl, rfl⟩ : msgType = .Piece ∧ message' = message ∧ size' = size := by
        simpa [hnext', eq_comm] using hnext
      have hk : (field message' beyond.2 0, field message' beyond.2 4) ∈ ctx.pending :=
        AList.lookup_isSome.1 (by unfold answered at hsize; rw [hsize]; rfl)
      obtain ⟨rfl, rfl⟩ : { ctx with
          pending := ctx.pending.erase (field message' beyond.2 0, field message' beyond.2 4)
          backlog := decr8 ctx.backlog } = ctx₁ ∧ w.downloader = dl₁ := by
        unfold answered at hsize
        simpa [handleMessage, handlePiece, hsize, hinvalid] using hhandle
      obtain ⟨hreq, hout⟩ := afterMessage_leak h.pieces ((h.sound hl).pending_requested hk) (by simp) hafter
      exact not_consistent_put h hl { ctx₂ with recvBuffer := ctx₂.recvBuffer.drop size' } hk hreq hout _
  | sweep id tick newFd =>
    unfold Clean at hclean
    push Not at hclean
    obtain ⟨ctx, hl, ⟨hdrop, hfd, hdiff, hmore⟩, k, hk⟩ := hclean
    have hwait : ¬ (ctx.closed = false ∧ diffInSec ctx tick < cfg.MAX_REQ_WAIT_TIME) := by
      rintro ⟨hopen, hlt⟩
      rcases hdrop with hclosed | ⟨-, hlate⟩
      · rw [hopen] at hclosed
        cases hclosed
      · exact hlate hlt
    have htimeout : onTimeout cfg ctx w.downloader = some ({ ctx with closed := true }, w.downloader) := by
      unfold onTimeout
      split
      · rename_i hclosed
        rw [← hclosed]
      · rename_i hclosed
        rw [if_pos (hdrop.resolve_left hclosed).1]
    have hstep : Torrent.step cfg w (.sweep id tick newFd) = some { w.put id
        { ({ ctx with closed := true } : PeerContext).onReconnect newFd tick with sendBuffer := cfg.handshake }
        w.downloader with
        fd2PeerID := if newFd ∈ w.fd2PeerID then w.fd2PeerID else w.fd2PeerID.insert newFd id } := by
      have hagain : diffInSec ctx tick ≥ cfg.MIN_RECON_WAIT_TIME ∧
          ctx.reconnectAttempts < cfg.MAX_RECONNECT_ATTEMPTS := ⟨hdiff, hmore⟩
      simp only [Torrent.step, hl, Option.bind_eq_bind, Option.bind_some, Torrent.sweepPeer, if_neg hwait, htimeout,
        if_true, if_neg hfd, if_pos hagain]
      rfl
    rw [hstep] at hrun
    obtain rfl := Option.some.inj hrun
    exact not_consistent_put h hl _ hk ((h.sound hl).pending_requested hk) (AList.notMem_empty k) _

/-- The states that a run reaches, up to its end or the event that cannot happen. -/
def trace (cfg : Config) : World → List Event → List World
  | w, [] => [w]
  | w, e :: events =>
    w :: match step cfg w e with
      | none => []
      | some w' => trace cfg w' events

/-- Every event of the run finds a state in which it keeps the books. -/
def CleanRun (cfg : Config) : World → List Event → Prop
  | _, [] => True
  | w, e :: events =>
    match step cfg w e with
    | none => True
    | some w' => Clean cfg w e ∧ CleanRun cfg w' events

theorem Inv.trace_iff (h : Inv cfg w) (events : List Event) :
    (∀ w' ∈ trace cfg w events, Consistent cfg w') ↔ CleanRun cfg w events := by
  induction events generalizing w with
  | nil => simpa [trace, CleanRun] using h.toConsistent
  | cons e events ih =>
    rw [trace, CleanRun, List.forall_mem_cons]
    cases hstep : Torrent.step cfg w e with
    | none => simpa using h.toConsistent
    | some w' =>
      change (_ ∧ ∀ x ∈ trace cfg w' events, Consistent cfg x) ↔ Clean cfg w e ∧ CleanRun cfg w' events
      by_cases hclean : Clean cfg w e
      · rw [ih (h.step hclean hstep)]
        exact and_congr_left fun _ => iff_of_true h.toConsistent hclean
      · have hbad := h.not_consistent_step hclean hstep
        have hmem : w' ∈ trace cfg w' events := by cases events <;> simp [trace]
        simp only [hclean, false_and, iff_false, not_and]
        exact fun _ hall => hbad (hall w' hmem)

/-- The state before the loop: no piece in progress, and nothing asked of any peer. -/
structure Initial (w : World) : Prop where
  pieces : w.downloader.pieceManager.partialPieces = ∅
  idle : ∀ id ctx, w.states.lookup id = some ctx → ctx.pending = ∅ ∧ ctx.backlog = 0

lemma Initial.inv (h : Initial w) (cfg : Config) : Inv cfg w := by
  have hreq : w.downloader.pieceManager.requested cfg.layout = ∅ := by
    rw [Set.eq_empty_iff_forall_notMem]
    rintro k ⟨piece, hl, -⟩
    simp [h.pieces] at hl
  refine ⟨⟨⟨?_, ?_⟩, ?_⟩, ?_⟩
  · intro k hk
    rw [World.ledger, hreq] at hk
    exact hk.elim
  · rintro id k ⟨ctx, hl, hk⟩
    rw [(h.idle id ctx hl).1] at hk
    exact (AList.notMem_empty k hk).elim
  · intro id ctx hl
    rw [(h.idle id ctx hl).1, (h.idle id ctx hl).2]
    exact ⟨rfl, Nat.zero_le _⟩
  · intro pieceIdx piece hl
    simp [h.pieces] at hl

/-- On every run of the downloader: the books are right in every state that it reaches if and only if no
requested block is answered by one of another size, and no peer is connected to anew with blocks pending. -/
theorem consistent_iff_cleanRun (cfg : Config) (w : World) (events : List Event) (h : Initial w) :
    (∀ w' ∈ trace cfg w events, Consistent cfg w') ↔ CleanRun cfg w events := (h.inv cfg).trace_iff events

section LostBlock

/-- A torrent of one piece with one block of 16 bytes. -/
def tiny : Config where
  layout := ⟨16, 16, 16, zeros 20, by decide, by decide, by decide, by decide, by decide⟩
  numPieces := 1
  handshake := buildHandshake (zeros 20) (zeros 20)
  MAX_REQ_WAIT_TIME := 5
  MIN_RECON_WAIT_TIME := 30
  MAX_BACKLOG := 8
  MAX_UNCHOKE_ATTEMPTS := 3
  MAX_RECONNECT_ATTEMPTS := 3
  backlog_lt := by decide

def onePeer : World where
  downloader := ⟨⟨∅, ∅⟩, []⟩
  states := AList.singleton [] ⟨3, false, true, false, 0, 0, 0, ∅, ∅, [], tiny.handshake, 0⟩
  fd2PeerID := AList.singleton 3 []

/-- The peer shakes hands, has the piece and unchokes, and answers the request with a block of one byte. -/
def shortBlock : List Event :=
  [.receive 3 (buildHandshake (zeros 20) (zeros 20) ++ buildMessageHelper 5 4 (zeros 4) ++ buildMessageHelper 1 1 [] ++
      buildMessageHelper 10 7 (zeros 9)) 1,
    .message 3 (0, []) ⟨[], [0]⟩, .message 3 (0, []) ⟨[], [0]⟩, .message 3 (0, []) ⟨[0], [0]⟩]

lemma mem_singleton_states (hkeys : w.states.keys = [[]]) (hl : w.states.lookup id = some ctx) : id = [] := by
  have hid : id ∈ w.states := AList.lookup_isSome.1 (by rw [hl]; rfl)
  simpa [AList.mem_keys, hkeys] using hid

lemma initial_onePeer : Initial onePeer where
  pieces := rfl
  idle := by
    intro id ctx hl
    obtain rfl := mem_singleton_states rfl hl
    obtain rfl := Option.some.inj hl
    exact ⟨rfl, rfl⟩

theorem consistent_iff_cleanRun_shortBlock :
    (∀ w' ∈ trace tiny onePeer shortBlock, Consistent tiny w') ↔ CleanRun tiny onePeer shortBlock :=
  consistent_iff_cleanRun tiny onePeer shortBlock initial_onePeer

/-- The last state of the run: the block is still requested, and no peer has it pending. -/
theorem not_consistent_shortBlock : ¬ ∀ w' ∈ trace tiny onePeer shortBlock, Consistent tiny w' := by
  intro h
  have hlast : ∃ w', w' ∈ trace tiny onePeer shortBlock ∧ w'.states.keys = [[]] ∧
      (∃ piece, w'.downloader.pieceManager.partialPieces.lookup 0 = some piece ∧ piece.states = [.REQUESTED]) ∧
      ∃ ctx, w'.states.lookup [] = some ctx ∧ ctx.pending.keys = [] := by
    refine ⟨(trace tiny onePeer shortBlock).getLast (by decide), List.getLast_mem _, ?_, ?_, ?_⟩
    · decide
    · exact ⟨_, rfl, rfl⟩
    · exact ⟨_, rfl, rfl⟩
  obtain ⟨w', hmem, hkeys, ⟨piece, hpiece, hstates⟩, ctx, hctx, hpending⟩ := hlast
  have hrequested : (0, 0) ∈ (w'.ledger tiny).requested := ⟨piece, hpiece, 0, by rw [hstates]; rfl, rfl⟩
  refine Ledger.not_balanced hrequested ?_ (h w' hmem).balanced
  rintro id ⟨ctx', hl, hk⟩
  obtain rfl := mem_singleton_states hkeys hl
  rw [hctx] at hl
  obtain rfl := Option.some.inj hl
  simp [AList.mem_keys, hpending] at hk

end LostBlock

end CppExperiments.Torrent
