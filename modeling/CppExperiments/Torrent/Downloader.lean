import CppExperiments.Torrent.PieceManager
import CppExperiments.Torrent.Protocol

/-!
# The downloader

The contexts of the peers, the message handlers, and the loop of `download` as a step function on
the events that drive it. What the operating system decides comes with the event: the bytes received, the
descriptor of a new socket, the clock, the orders in which hash containers are iterated, and the bytes
that lie behind a payload in memory. The poll manager is left out: an event may come from
every descriptor that `fd2PeerID` knows.
-/

namespace CppExperiments.Torrent

open PieceManager (Orders)

structure Config where
  layout : Layout
  numPieces : Nat
  handshake : Bytes
  MAX_REQ_WAIT_TIME : Nat
  MIN_RECON_WAIT_TIME : Nat
  MAX_BACKLOG : Nat
  MAX_UNCHOKE_ATTEMPTS : Nat
  MAX_RECONNECT_ATTEMPTS : Nat
  backlog_lt : MAX_BACKLOG < 2 ^ 8

/-- Times are in nanoseconds; `pending` maps piece and offset to the size asked for. -/
structure PeerContext where
  fd : Int
  handshaked : Bool
  choked : Bool
  closed : Bool
  unchokeAttempts : Nat
  reconnectAttempts : Nat
  backlog : Nat
  haves : Finset Nat
  pending : AList (fun _ : Nat × Nat => Nat)
  recvBuffer : Bytes
  sendBuffer : Bytes
  lastReadTimeStamp : Int

/-- The members of `TorrentDownloader` that change: the piece manager, and what the disk writer was
given to write. -/
structure Downloader where
  pieceManager : PieceManager
  scheduled : List (Nat × Bytes)

abbrev PeerID := Bytes

/-- The downloader with the local maps of `download`. -/
structure World where
  downloader : Downloader
  states : AList (fun _ : PeerID => PeerContext)
  fd2PeerID : AList (fun _ : Int => PeerID)

def incr8 (n : Nat) : Nat := (n + 1) % 2 ^ 8

def decr8 (n : Nat) : Nat := (n + (2 ^ 8 - 1)) % 2 ^ 8

def PeerContext.onReconnect (ctx : PeerContext) (newFd tick : Int) : PeerContext :=
  { fd := newFd, reconnectAttempts := incr8 ctx.reconnectAttempts
    handshaked := false, choked := true, closed := false
    unchokeAttempts := 0, backlog := 0
    haves := ∅, pending := ∅, recvBuffer := [], sendBuffer := [], lastReadTimeStamp := tick }

def readBitField (payload : Bytes) : Finset Nat :=
  ((bitsOf payload).zipIdx.filterMap (fun p => if p.1 then some (p.2 % 2 ^ 32) else none)).toFinset

/-- A 32-bit big-endian field of a payload. -/
def field (payload beyond : Bytes) (offset : Nat) : Nat := ofBeBytes (((payload ++ beyond).drop offset).take 4)

def handleHave (payload beyond : Bytes) (ctx : PeerContext) : PeerContext :=
  { ctx with haves := insert (field payload beyond 0) ctx.haves }

def handleBitfield (cfg : Config) (payload : Bytes) (ctx : PeerContext) : PeerContext :=
  if payload.length ≠ (cfg.numPieces + 7) / 8 then ctx else { ctx with haves := readBitField payload }

/-- The size test of a received block, in `std::size_t`. -/
def validBlock (payload : Bytes) (blockSize : Nat) : Bool := (payload.length + (2 ^ 64 - 8)) % 2 ^ 64 == blockSize

/-- Where the downloader has a piece written, in 32-bit arithmetic. -/
def pieceOffset (lay : Layout) (pIndex : Nat) : Nat := pIndex * lay.pieceSize % 2 ^ 32

def handlePiece (cfg : Config) (payload beyond : Bytes) (ctx : PeerContext) (dl : Downloader) :
    Option (PeerContext × Downloader) :=
  let pIndex := field payload beyond 0
  let pBegin := field payload beyond 4
  match ctx.pending.lookup (pIndex, pBegin) with
  | none => some (ctx, dl)
  | some blockSize =>
    let ctx := { ctx with pending := ctx.pending.erase (pIndex, pBegin), backlog := decr8 ctx.backlog }
    if validBlock payload blockSize then do
      let (piece, pm) ← dl.pieceManager.onBlockReceived cfg.layout pIndex pBegin payload beyond
      match piece with
      | none => return (ctx, { dl with pieceManager := pm })
      | some bytes => return (ctx, ⟨pm, dl.scheduled ++ [(pieceOffset cfg.layout pIndex, bytes)]⟩)
    else some (ctx, dl)

def clearPendingFromPeer (cfg : Config) (ctx : PeerContext) (dl : Downloader) : Option (PeerContext × Downloader) := do
  let pm ← PieceManager.onPeerReset cfg.layout ctx.pending.keys dl.pieceManager
  return ({ ctx with pending := ∅, backlog := 0 }, { dl with pieceManager := pm })

def handleChoke (cfg : Config) (ctx : PeerContext) (dl : Downloader) : Option (PeerContext × Downloader) := do
  let (ctx, dl) ← clearPendingFromPeer cfg ctx dl
  return ({ ctx with choked := true }, dl)

def handleUnchoke (ctx : PeerContext) : PeerContext := { ctx with unchokeAttempts := 0, choked := false }

def handleMessage (cfg : Config) (msgType : MsgType) (message beyond : Bytes) (ctx : PeerContext) (dl : Downloader) :
    Option (PeerContext × Downloader) :=
  match msgType with
  | .Choke => handleChoke cfg ctx dl
  | .Unchoke => some (handleUnchoke ctx, dl)
  | .Have => some (handleHave message beyond ctx, dl)
  | .Piece => handlePiece cfg message beyond ctx dl
  | .Bitfield => some (handleBitfield cfg message ctx, dl)
  | .Other _ | .Unknown => some (ctx, dl)

/-- `std::unordered_set::emplace`: an element that is there stays. -/
def addRequest (ctx : PeerContext) (blk : PieceBlock) : PeerContext :=
  { ctx with
    sendBuffer := ctx.sendBuffer ++ buildRequest blk.pieceIdx blk.blockOffset blk.blockSize false
    pending := if blk.key ∈ ctx.pending then ctx.pending else ctx.pending.insert blk.key blk.blockSize
    backlog := incr8 ctx.backlog }

/-- What follows every message: asking a choking peer to unchoke, or asking the peer for more blocks. -/
def afterMessage (cfg : Config) (orders : Orders) (ctx : PeerContext) (dl : Downloader) :
    Option (PeerContext × Downloader) :=
  if ctx.choked then
    if (ctx.unchokeAttempts : Int) > cfg.MAX_UNCHOKE_ATTEMPTS - 1 then some ({ ctx with closed := true }, dl)
    else if ctx.sendBuffer ≠ buildUnchoke then
      some ({ ctx with unchokeAttempts := incr8 ctx.unchokeAttempts, sendBuffer := buildUnchoke }, dl)
    else some (ctx, dl)
  else if ctx.backlog < cfg.MAX_BACKLOG then do
    let (pendingBlocks, pm) ←
      dl.pieceManager.getPendingBlocks cfg.layout orders ctx.haves (cfg.MAX_BACKLOG - ctx.backlog)
    return (pendingBlocks.foldl addRequest ctx, { dl with pieceManager := pm })
  else some (ctx, dl)

/-- The message at the front of the receive buffer, if the loop over the messages gets to it. -/
def nextMessage (ctx : PeerContext) (beyond : UInt8) : Option (MsgType × Bytes × Nat) :=
  let msgLen := IsCompleteMessage ctx.recvBuffer
  let size := (msgLen + 4) % 2 ^ 32
  if ctx.closed = false ∧ ctx.handshaked = true ∧ msgLen > 0 then do
    let (msgType, message) ← parseMessage (ctx.recvBuffer.take size) beyond
    return (msgType, message, size)
  else none

/-- One turn of the loop over the messages. -/
def onMessage (cfg : Config) (beyond : UInt8 × Bytes) (orders : Orders) (ctx : PeerContext) (dl : Downloader) :
    Option (PeerContext × Downloader) := do
  let (msgType, message, size) ← nextMessage ctx beyond.1
  let (ctx, dl) ← handleMessage cfg msgType message beyond.2 ctx dl
  let (ctx, dl) ← afterMessage cfg orders ctx dl
  return ({ ctx with recvBuffer := ctx.recvBuffer.drop size }, dl)

/-- Bytes arrive; the first 68 have to be a handshake for the same torrent. -/
def onReceive (cfg : Config) (recvBytes : Bytes) (tick : Int) (ctx : PeerContext) : PeerContext :=
  let ctx := { ctx with recvBuffer := ctx.recvBuffer ++ recvBytes, lastReadTimeStamp := tick }
  if ctx.handshaked = false ∧ ctx.recvBuffer.length ≥ 68 then
    if cfg.handshake.take 20 = ctx.recvBuffer.take 20 ∧
        (cfg.handshake.drop 28).take 20 = (ctx.recvBuffer.drop 28).take 20 then
      { ctx with handshaked := true, recvBuffer := ctx.recvBuffer.drop 68, sendBuffer := buildInterested }
    else { ctx with closed := true }
  else ctx

def diffInSec (ctx : PeerContext) (tick : Int) : Int := (tick - ctx.lastReadTimeStamp).tdiv 1000000000

/-- A peer that has been silent for too long, if it is not closed already: dropped if it chokes, else its
requests are taken back. -/
def onTimeout (cfg : Config) (ctx : PeerContext) (dl : Downloader) : Option (PeerContext × Downloader) :=
  if ctx.closed then some (ctx, dl)
  else if ctx.choked then some ({ ctx with closed := true }, dl)
  else if ctx.backlog ≠ 0 then
    let cancels := ctx.pending.entries.flatMap (fun e => buildRequest e.1.1 e.1.2 e.2 false)
    clearPendingFromPeer cfg { ctx with sendBuffer := cancels } dl
  else some (ctx, dl)

inductive Event where
  | receive (fd : Int) (recvBytes : Bytes) (tick : Int)
  | message (fd : Int) (beyond : UInt8 × Bytes) (orders : Orders)
  | sent (fd : Int) (sentBytes : Nat)
  | failure (fd : Int)
  | sweep (id : PeerID) (tick newFd : Int)

def World.put (w : World) (id : PeerID) (ctx : PeerContext) (dl : Downloader) : World :=
  { w with downloader := dl, states := w.states.insert id ctx }

/-- The context an event of the poll loop is about. -/
def World.peer (w : World) (fd : Int) : Option (PeerID × PeerContext) := do
  let id ← w.fd2PeerID.lookup fd
  let ctx ← w.states.lookup id
  return (id, ctx)

/-- The sweep over the peers after the poll loop, at one of them. -/
def sweepPeer (cfg : Config) (w : World) (id : PeerID) (ctx : PeerContext) (tick newFd : Int) : Option World := do
  if ctx.closed = false ∧ diffInSec ctx tick < cfg.MAX_REQ_WAIT_TIME then return w
  else
    let diff := diffInSec ctx tick
    let (ctx, dl) ← onTimeout cfg ctx w.downloader
    if ctx.closed then
      if ctx.fd ∈ w.fd2PeerID then
        let (ctx, dl) ← clearPendingFromPeer cfg ctx dl
        return { w.put id { ctx with lastReadTimeStamp := tick } dl with fd2PeerID := w.fd2PeerID.erase ctx.fd }
      else if diff ≥ cfg.MIN_RECON_WAIT_TIME ∧ ctx.reconnectAttempts < cfg.MAX_RECONNECT_ATTEMPTS then
        let ctx := { ctx.onReconnect newFd tick with sendBuffer := cfg.handshake }
        return { w.put id ctx dl with
          fd2PeerID := if newFd ∈ w.fd2PeerID then w.fd2PeerID else w.fd2PeerID.insert newFd id }
      else return w.put id ctx dl
    else return w.put id ctx dl

/-- One event. `none` where it cannot happen, or where the code throws. -/
def step (cfg : Config) (w : World) : Event → Option World
  | .receive fd recvBytes tick => do
    let (id, ctx) ← w.peer fd
    if ctx.closed = false ∧ recvBytes ≠ [] then return w.put id (onReceive cfg recvBytes tick ctx) w.downloader
    else none
  | .message fd beyond orders => do
    let (id, ctx) ← w.peer fd
    let (ctx, dl) ← onMessage cfg beyond orders ctx w.downloader
    return w.put id ctx dl
  | .sent fd sentBytes => do
    let (id, ctx) ← w.peer fd
    if ctx.closed = false then return w.put id { ctx with sendBuffer := ctx.sendBuffer.drop sentBytes } w.downloader
    else none
  | .failure fd => do
    let (id, ctx) ← w.peer fd
    return w.put id { ctx with closed := true } w.downloader
  | .sweep id tick newFd => do
    let ctx ← w.states.lookup id
    sweepPeer cfg w id ctx tick newFd

end CppExperiments.Torrent
