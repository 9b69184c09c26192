import CppExperiments.Lib.Runs
import CppExperiments.Torrent.Messages

/-!
# What goes out to a peer

Beside every peer we record what was sent on its connection, and in order the messages that were put into
its send buffer and those that were received. The record is made from the state before an event; it changes
nothing about the run.
-/

namespace CppExperiments.Torrent

open PieceManager (Orders)

inductive Entry where
  | put (message : Bytes)
  | got (msgType : MsgType) (message beyond : Bytes)

/-- The record of one connection. -/
structure Line where
  wire : Bytes
  entries : List Entry

/-- The request for a block. -/
def PieceBlock.request (blk : PieceBlock) : Bytes := buildRequest blk.pieceIdx blk.blockOffset blk.blockSize false

/-- The messages that `afterMessage` puts into the send buffer. -/
def answers (cfg : Config) (orders : Orders) (ctx : PeerContext) (dl : Downloader) : List Bytes :=
  if ctx.choked then
    if (ctx.unchokeAttempts : Int) > cfg.MAX_UNCHOKE_ATTEMPTS - 1 then []
    else if ctx.sendBuffer ≠ buildUnchoke then [buildUnchoke] else []
  else if ctx.backlog < cfg.MAX_BACKLOG then
    match dl.pieceManager.getPendingBlocks cfg.layout orders ctx.haves (cfg.MAX_BACKLOG - ctx.backlog) with
    | none => []
    | some (pendingBlocks, _) => pendingBlocks.map PieceBlock.request
  else []

/-- The messages that `onTimeout` puts into the send buffer. -/
def cancels (ctx : PeerContext) : List Bytes :=
  ctx.pending.entries.map (fun e => buildRequest e.1.1 e.1.2 e.2 false)

/-- The received bytes complete a handshake for the same torrent. -/
def Shakes (cfg : Config) (ctx : PeerContext) (recvBytes : Bytes) : Prop :=
  (ctx.handshaked = false ∧ (ctx.recvBuffer ++ recvBytes).length ≥ 68) ∧
    cfg.handshake.take 20 = (ctx.recvBuffer ++ recvBytes).take 20 ∧
    (cfg.handshake.drop 28).take 20 = ((ctx.recvBuffer ++ recvBytes).drop 28).take 20

/-- The sweep finds the peer silent for too long while it owes blocks. -/
def TimesOut (cfg : Config) (ctx : PeerContext) (tick : Int) : Prop :=
  ctx.closed = false ∧ ¬ diffInSec ctx tick < cfg.MAX_REQ_WAIT_TIME ∧ ctx.choked = false ∧ ctx.backlog ≠ 0

instance (cfg : Config) (ctx : PeerContext) (recvBytes : Bytes) : Decidable (Shakes cfg ctx recvBytes) :=
  inferInstanceAs (Decidable (_ ∧ _))

instance (cfg : Config) (ctx : PeerContext) (tick : Int) : Decidable (TimesOut cfg ctx tick) :=
  inferInstanceAs (Decidable (_ ∧ _))

instance (cfg : Config) (w : World) (ctx : PeerContext) (tick : Int) : Decidable (Reconnects cfg w ctx tick) :=
  inferInstanceAs (Decidable (_ ∧ _))

/-- The peer that an event is about. -/
def World.subject (w : World) : Event → Option (PeerID × PeerContext)
  | .receive fd _ _ | .message fd _ _ | .sent fd _ | .failure fd => w.peer fd
  | .sweep id _ _ => (w.states.lookup id).map (fun ctx => (id, ctx))

/-- What an event adds to the record of the peer that it is about. -/
def note (cfg : Config) (w : World) (ctx : PeerContext) (line : Line) : Event → Line
  | .receive _ recvBytes _ =>
    if Shakes cfg ctx recvBytes then { line with entries := line.entries ++ [.put buildInterested] } else line
  | .message _ beyond orders =>
    match nextMessage ctx beyond.1 with
    | none => line
    | some (msgType, message, _) =>
      match handleMessage cfg msgType message beyond.2 ctx w.downloader with
      | none => line
      | some (ctx', dl) => { line with
        entries := line.entries ++ .got msgType message beyond.2 :: (answers cfg orders ctx' dl).map .put }
  | .sent _ sentBytes => { line with wire := line.wire ++ ctx.sendBuffer.take sentBytes }
  | .failure _ => line
  | .sweep _ tick _ =>
    if TimesOut cfg ctx tick then { line with entries := line.entries ++ (cancels ctx).map .put }
    else if Reconnects cfg w ctx tick then ⟨[], []⟩
    else line

def observe (cfg : Config) (w : World) (lines : PeerID → Line) (e : Event) : PeerID → Line :=
  match w.subject e with
  | none => lines
  | some (id, ctx) => Function.update lines id (note cfg w ctx (lines id) e)

variable {cfg : Config} {w w' : World} {id : PeerID} {e : Event} {ctx ctx' : PeerContext}

/-- What an event does to a peer and to its record. -/
inductive LineStep (cfg : Config) (w : World) : Event → PeerContext → Line → PeerContext → Line → Prop where
  | rest {e : Event} {ctx ctx' : PeerContext} {line : Line} : ctx'.sendBuffer = ctx.sendBuffer →
      (ctx'.closed = false → ctx.closed = false ∧ ctx'.pending = ctx.pending) → LineStep cfg w e ctx line ctx' line
  | shakes {fd : Int} {recvBytes : Bytes} {tick : Int} {ctx ctx' : PeerContext} {line : Line} :
      ctx.closed = false → Shakes cfg ctx recvBytes → ctx'.sendBuffer = buildInterested →
      ctx'.pending = ctx.pending → LineStep cfg w (.receive fd recvBytes tick) ctx line ctx'
        { line with entries := line.entries ++ [.put buildInterested] }
  | message {fd : Int} {beyond : UInt8 × Bytes} {orders : Orders} {msgType : MsgType} {message : Bytes} {size : Nat}
      {ctx ctx₁ ctx₂ : PeerContext} {dl₁ dl₂ : Downloader} {line : Line} :
      nextMessage ctx beyond.1 = some (msgType, message, size) →
      handleMessage cfg msgType message beyond.2 ctx w.downloader = some (ctx₁, dl₁) →
      afterMessage cfg orders ctx₁ dl₁ = some (ctx₂, dl₂) →
      LineStep cfg w (.message fd beyond orders) ctx line { ctx₂ with recvBuffer := ctx₂.recvBuffer.drop size }
        { line with entries := line.entries ++ .got msgType message beyond.2 :: (answers cfg orders ctx₁ dl₁).map .put }
  | sent {fd : Int} {sentBytes : Nat} {ctx : PeerContext} {line : Line} : ctx.closed = false →
      LineStep cfg w (.sent fd sentBytes) ctx line { ctx with sendBuffer := ctx.sendBuffer.drop sentBytes }
        { line with wire := line.wire ++ ctx.sendBuffer.take sentBytes }
  | timesOut {id : PeerID} {tick newFd : Int} {ctx : PeerContext} {line : Line} : TimesOut cfg ctx tick →
      LineStep cfg w (.sweep id tick newFd) ctx line
        { ctx with sendBuffer := (cancels ctx).flatten, pending := ∅, backlog := 0 }
        { line with entries := line.entries ++ (cancels ctx).map .put }
  | reconnects {id : PeerID} {tick newFd : Int} {ctx ctx' : PeerContext} {line : Line} : Reconnects cfg w ctx tick →
      ctx'.sendBuffer = cfg.handshake → ctx'.pending = ∅ → LineStep cfg w (.sweep id tick newFd) ctx line ctx' ⟨[], []⟩

lemma onReceive_shakes {recvBytes : Bytes} (tick : Int) (h : Shakes cfg ctx recvBytes) :
    (onReceive cfg recvBytes tick ctx).sendBuffer = buildInterested := by
  rw [onReceive, if_pos h.1, if_pos h.2]

lemma onReceive_rest {recvBytes : Bytes} (tick : Int) (h : ¬ Shakes cfg ctx recvBytes) :
    (onReceive cfg recvBytes tick ctx).sendBuffer = ctx.sendBuffer := by
  unfold onReceive
  simp only []
  split
  · rename_i hlong
    split
    · rename_i hsame
      exact absurd ⟨hlong, hsame⟩ h
    · rfl
  · rfl

lemma lookup_put (w : World) (id : PeerID) (ctx : PeerContext) (dl : Downloader) (id' : PeerID) :
    (w.put id ctx dl).states.lookup id' = if id' = id then some ctx else w.states.lookup id' := by
  by_cases hid : id' = id
  · subst hid
    simp [World.put]
  · simp [World.put, hid, AList.lookup_insert_ne hid]

/-- The sweep at a peer that is closed or is to be dropped. -/
lemma sweepPeer_dropped {tick newFd : Int} (hwait : ¬ (ctx.closed = false ∧ diffInSec ctx tick < cfg.MAX_REQ_WAIT_TIME))
    (hdrop : ctx.closed = true ∨ ctx.choked = true) (hrun : sweepPeer cfg w id ctx tick newFd = some w') : ∃ ctx',
    (∀ id', w'.states.lookup id' = if id' = id then some ctx' else w.states.lookup id') ∧
    (Reconnects cfg w ctx tick ∧ ctx'.sendBuffer = cfg.handshake ∧ ctx'.pending = ∅ ∨
      ¬ Reconnects cfg w ctx tick ∧ ctx'.sendBuffer = ctx.sendBuffer ∧ ctx'.closed = true) := by
  have htimeout : onTimeout cfg ctx w.downloader = some ({ ctx with closed := true }, w.downloader) := by
    unfold onTimeout
    split
    · rename_i hclosed
      rw [← hclosed]
    · rename_i hclosed
      rw [if_pos (hdrop.resolve_left hclosed)]
  have hgone : ctx.closed = true ∨ ctx.choked = true ∧ ¬ diffInSec ctx tick < cfg.MAX_REQ_WAIT_TIME := by
    cases hclosed : ctx.closed with
    | true => exact Or.inl rfl
    | false =>
      refine Or.inr ⟨hdrop.resolve_left (by simp [hclosed]), fun hlt => hwait ⟨hclosed, hlt⟩⟩
  simp only [sweepPeer, if_neg hwait, htimeout, Option.bind_eq_bind, Option.bind_some, if_true] at hrun
  split at hrun
  · rename_i hfd
    cases hclear : clearPendingFromPeer cfg { ctx with closed := true } w.downloader with
    | none => simp [hclear] at hrun
    | some r =>
      obtain ⟨ctx₂, dl₂⟩ := r
      obtain rfl := clearPendingFromPeer_eq hclear
      simp only [hclear, Option.bind_some] at hrun
      obtain rfl := Option.some.inj hrun
      exact ⟨_, lookup_put w id _ dl₂, Or.inr ⟨fun h => h.2.1 hfd, rfl, rfl⟩⟩
  · rename_i hfd
    split at hrun
    · rename_i hagain
      obtain rfl := Option.some.inj hrun
      exact ⟨_, lookup_put w id _ w.downloader, Or.inl ⟨⟨hgone, hfd, hagain⟩, rfl, rfl⟩⟩
    · rename_i hagain
      obtain rfl := Option.some.inj hrun
      exact ⟨_, lookup_put w id _ w.downloader, Or.inr ⟨fun h => hagain h.2.2, rfl, rfl⟩⟩

/-- The sweep at a peer that was silent for too long and owes blocks. -/
lemma sweepPeer_timesOut {tick newFd : Int} (hlate : TimesOut cfg ctx tick)
    (hrun : sweepPeer cfg w id ctx tick newFd = some w') :
    ∃ dl, w' = w.put id { ctx with sendBuffer := (cancels ctx).flatten, pending := ∅, backlog := 0 } dl := by
  obtain ⟨hopen, hlt, hchoked, hbacklog⟩ := hlate
  have hcancels : ctx.pending.entries.flatMap (fun e => buildRequest e.1.1 e.1.2 e.2 false) =
    (cancels ctx).flatten := by
    rw [cancels, List.flatMap_def]
  have htimeout : onTimeout cfg ctx w.downloader =
      clearPendingFromPeer cfg { ctx with sendBuffer := (cancels ctx).flatten } w.downloader := by
    rw [onTimeout, if_neg (by simp [hopen]), if_neg (by simp [hchoked]), if_pos hbacklog, hcancels]
  rw [sweepPeer, if_neg fun h => hlt h.2] at hrun
  cases hclear : clearPendingFromPeer cfg { ctx with sendBuffer := (cancels ctx).flatten } w.downloader with
  | none => simp [htimeout, hclear] at hrun
  | some r =>
    obtain ⟨ctx₁, dl₁⟩ := r
    obtain rfl := clearPendingFromPeer_eq hclear
    simp only [htimeout, hclear, Option.bind_eq_bind, Option.bind_some] at hrun
    simp only [hopen, Bool.false_eq_true, if_false] at hrun
    refine ⟨dl₁, ?_⟩
    simp only [hopen]
    exact (Option.some.inj hrun).symm

lemma sweepPeer_lines {tick newFd : Int} (hl : w.states.lookup id = some ctx)
    (hrun : sweepPeer cfg w id ctx tick newFd = some w') : ∃ ctx',
    (∀ id', w'.states.lookup id' = if id' = id then some ctx' else w.states.lookup id') ∧
    ∀ line, LineStep cfg w (.sweep id tick newFd) ctx line ctx' (note cfg w ctx line (.sweep id tick newFd)) := by
  have hsame : ∀ id', w.states.lookup id' = if id' = id then some ctx else w.states.lookup id' := by
    intro id'
    split
    · rename_i hid
      rw [hid, hl]
    · rfl
  by_cases hwait : ctx.closed = false ∧ diffInSec ctx tick < cfg.MAX_REQ_WAIT_TIME
  · have hlate : ¬ TimesOut cfg ctx tick := fun h => h.2.1 hwait.2
    have hagain : ¬ Reconnects cfg w ctx tick := by
      rintro ⟨hclosed | ⟨-, hlt⟩, -⟩
      · exact Bool.false_ne_true (hwait.1.symm.trans hclosed)
      · exact hlt hwait.2
    rw [sweepPeer, if_pos hwait] at hrun
    obtain rfl := Option.some.inj hrun
    refine ⟨ctx, hsame, fun line => ?_⟩
    rw [note, if_neg hlate, if_neg hagain]
    exact .rest rfl fun hopen => ⟨hopen, rfl⟩
  · by_cases hdrop : ctx.closed = true ∨ ctx.choked = true
    · have hlate : ¬ TimesOut cfg ctx tick := by
        rintro ⟨hopen, -, hchoked, -⟩
        simp [hopen, hchoked] at hdrop
      obtain ⟨ctx', hlookup, hrest⟩ := sweepPeer_dropped hwait hdrop hrun
      refine ⟨ctx', hlookup, fun line => ?_⟩
      rw [note, if_neg hlate]
      rcases hrest with ⟨hagain, hsend, hpending⟩ | ⟨hagain, hsend, hclosed⟩
      · rw [if_pos hagain]
        exact .reconnects hagain hsend hpending
      · rw [if_neg hagain]
        exact .rest hsend fun hopen => absurd (hopen.symm.trans hclosed) Bool.false_ne_true
    · rw [not_or, Bool.not_eq_true, Bool.not_eq_true] at hdrop
      have hagain : ¬ Reconnects cfg w ctx tick := by
        rintro ⟨hgone, -⟩
        simp [hdrop] at hgone
      by_cases hbacklog : ctx.backlog = 0
      · have hlate : ¬ TimesOut cfg ctx tick := fun h => h.2.2.2 hbacklog
        have htimeout : onTimeout cfg ctx w.downloader = some (ctx, w.downloader) := by
          simp [onTimeout, hdrop, hbacklog]
        rw [sweepPeer, if_neg hwait] at hrun
        simp only [htimeout, hdrop.1, Option.bind_eq_bind, Option.bind_some, Bool.false_eq_true, if_false] at hrun
        obtain rfl := Option.some.inj hrun
        refine ⟨ctx, lookup_put w id ctx w.downloader, fun line => ?_⟩
        rw [note, if_neg hlate, if_neg hagain]
        exact .rest rfl fun hopen => ⟨hopen, rfl⟩
      · have hlate : TimesOut cfg ctx tick := ⟨hdrop.1, fun hlt => hwait ⟨hdrop.1, hlt⟩, hdrop.2, hbacklog⟩
        obtain ⟨dl₁, rfl⟩ := sweepPeer_timesOut hlate hrun
        refine ⟨_, lookup_put w id _ dl₁, fun line => ?_⟩
        rw [note, if_pos hlate]
        exact .timesOut hlate

/-- Every event is about one peer, whose context and record it changes. -/
theorem step_lines (hrun : step cfg w e = some w') : ∃ id ctx ctx', w.subject e = some (id, ctx) ∧
    w.states.lookup id = some ctx ∧
    (∀ id', w'.states.lookup id' = if id' = id then some ctx' else w.states.lookup id') ∧
    ∀ line, LineStep cfg w e ctx line ctx' (note cfg w ctx line e) := by
  cases step_cases hrun with
  | @receive fd recvBytes tick id ctx hpeer hopen =>
    refine ⟨id, ctx, _, hpeer, peer_eq_some hpeer, lookup_put w id _ _, fun line => ?_⟩
    rw [note]
    by_cases hshakes : Shakes cfg ctx recvBytes
    · rw [if_pos hshakes]
      exact .shakes hopen.1 hshakes (onReceive_shakes tick hshakes) (onReceive_frame cfg recvBytes tick ctx).1
    · rw [if_neg hshakes]
      exact .rest (onReceive_rest tick hshakes) fun _ => ⟨hopen.1, (onReceive_frame cfg recvBytes tick ctx).1⟩
  | @message fd beyond orders id ctx ctx' dl hpeer hmsg =>
    obtain ⟨msgType, message, size, ctx₁, dl₁, ctx₂, hnext, hhandle, hafter, rfl⟩ := onMessage_cases hmsg
    refine ⟨id, ctx, _, hpeer, peer_eq_some hpeer, lookup_put w id _ _, fun line => ?_⟩
    simp only [note, hnext, hhandle]
    exact .message hnext hhandle hafter
  | @sent fd sentBytes id ctx hpeer hopen =>
    exact ⟨id, ctx, _, hpeer, peer_eq_some hpeer, lookup_put w id _ _, fun line => .sent hopen⟩
  | @failure fd id ctx hpeer =>
    exact ⟨id, ctx, { ctx with closed := true }, hpeer, peer_eq_some hpeer, lookup_put w id _ _,
      fun line => .rest rfl fun hopen => by cases hopen⟩
  | @sweep id tick newFd ctx _ hl hsweep =>
    obtain ⟨ctx', hlookup, hline⟩ := sweepPeer_lines hl hsweep
    exact ⟨id, ctx, ctx', by simp [World.subject, hl], hl, hlookup, hline⟩

/-- The downloader with the records of all its connections. -/
structure Observed where
  w : World
  lines : PeerID → Line

def Observed.step (cfg : Config) (o : Observed) (e : Event) : Option Observed :=
  (Torrent.step cfg o.w e).map (fun w' => ⟨w', observe cfg o.w o.lines e⟩)

/-- Before the loop nothing was sent. -/
def Observed.start (w : World) : Observed := ⟨w, fun _ => ⟨[], []⟩⟩

/-- What holds of every context and its record holds after an event if the event keeps it for its own peer. -/
theorem Observed.forall_step {P : PeerContext → Line → Prop} {o o' : Observed}
    (h : ∀ id ctx, o.w.states.lookup id = some ctx → P ctx (o.lines id))
    (hkeep : ∀ id ctx ctx' line', o.w.subject e = some (id, ctx) → P ctx (o.lines id) →
      LineStep cfg o.w e ctx (o.lines id) ctx' line' → P ctx' line')
    (hrun : o.step cfg e = some o') : ∀ id ctx, o'.w.states.lookup id = some ctx → P ctx (o'.lines id) := by
  obtain ⟨w', hstep, rfl⟩ := Option.map_eq_some_iff.1 hrun
  obtain ⟨id, ctx, ctx', hsubject, hl, hlookup, hline⟩ := step_lines hstep
  intro id' ctx'' hl'
  rw [hlookup id'] at hl'
  simp only [observe, hsubject]
  by_cases hid : id' = id
  · subst hid
    rw [if_pos rfl] at hl'
    obtain rfl := Option.some.inj hl'
    rw [Function.update_self]
    exact hkeep id' ctx ctx' _ hsubject (h id' ctx hl) (hline _)
  · rw [if_neg hid] at hl'
    rw [Function.update_of_ne hid]
    exact h id' ctx'' hl'

end CppExperiments.Torrent
