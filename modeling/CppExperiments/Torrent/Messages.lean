import CppExperiments.Lib.Steps
import CppExperiments.Torrent.Bookkeeping

/-!
# The loop over received messages

Received bytes are collected in a buffer, and complete messages are cut off its front one after the other. What
the loop comes to for a stream of built messages that arrives in pieces, and when it ends at all.
-/

namespace CppExperiments.Torrent

open PieceManager (Orders)

variable {cfg : Config} {ctx ctx' : PeerContext} {dl dl' : Downloader}

/-! ## What the handlers leave alone -/

/-- The two buffers and the state of the connection are the same. -/
structure PeerContext.SameLine (ctx ctx' : PeerContext) : Prop where
  handshaked : ctx'.handshaked = ctx.handshaked
  closed : ctx'.closed = ctx.closed
  recvBuffer : ctx'.recvBuffer = ctx.recvBuffer
  sendBuffer : ctx'.sendBuffer = ctx.sendBuffer

lemma PeerContext.SameLine.refl (ctx : PeerContext) : ctx.SameLine ctx := ⟨rfl, rfl, rfl, rfl⟩

lemma clearPendingFromPeer_eq (hrun : clearPendingFromPeer cfg ctx dl = some (ctx', dl')) :
    ctx' = { ctx with pending := ∅, backlog := 0 } := by
  obtain ⟨-, -, hctx, -⟩ := clearPendingFromPeer_cases hrun
  exact hctx

/-- A block takes nothing but itself off the pending blocks. -/
lemma handlePiece_eq {payload beyond : Bytes} (hrun : handlePiece cfg payload beyond ctx dl = some (ctx', dl')) :
    ctx' = ctx ∧ (field payload beyond 0, field payload beyond 4) ∉ ctx.pending ∨
    ctx' = { ctx with
      pending := ctx.pending.erase (field payload beyond 0, field payload beyond 4)
      backlog := decr8 ctx.backlog } := by
  rcases handlePiece_cases hrun with ⟨hnone, hctx, -⟩ | ⟨-, -, hctx, -⟩
  · exact Or.inl ⟨hctx, AList.lookup_eq_none.1 hnone⟩
  · exact Or.inr hctx

lemma handleMessage_sameLine {msgType : MsgType} {message beyond : Bytes}
    (hrun : handleMessage cfg msgType message beyond ctx dl = some (ctx', dl')) : ctx.SameLine ctx' := by
  cases msgType with
  | Piece =>
    rcases handlePiece_eq hrun with ⟨rfl, -⟩ | rfl
    · exact .refl _
    · exact ⟨rfl, rfl, rfl, rfl⟩
  | Choke =>
    obtain ⟨ctx₁, hclear, rfl⟩ := handleChoke_cases hrun
    obtain rfl := clearPendingFromPeer_eq hclear
    exact ⟨rfl, rfl, rfl, rfl⟩
  | Bitfield =>
    obtain ⟨rfl, -⟩ := Prod.mk.inj (Option.some.inj hrun)
    unfold handleBitfield
    split
    · exact .refl _
    · exact ⟨rfl, rfl, rfl, rfl⟩
  | Unchoke | Have | Other | Unknown =>
    obtain ⟨rfl, -⟩ := Prod.mk.inj (Option.some.inj hrun)
    exact ⟨rfl, rfl, rfl, rfl⟩

lemma addRequests_sameLine (blocks : List PieceBlock) (ctx : PeerContext) :
    (blocks.foldl addRequest ctx).handshaked = ctx.handshaked ∧ (blocks.foldl addRequest ctx).closed = ctx.closed ∧
      (blocks.foldl addRequest ctx).recvBuffer = ctx.recvBuffer := by
  induction blocks generalizing ctx with
  | nil => exact ⟨rfl, rfl, rfl⟩
  | cons blk rest ih => exact ih (addRequest ctx blk)

/-- What follows a message leaves the received bytes alone, and closes the connection only to a peer that was
asked to unchoke often enough. -/
lemma afterMessage_recvBuffer {orders : Orders} (hrun : afterMessage cfg orders ctx dl = some (ctx', dl')) :
    ctx'.recvBuffer = ctx.recvBuffer ∧ ctx'.handshaked = ctx.handshaked ∧
      (ctx'.closed = true ↔ ctx.closed = true ∨
        ctx.choked = true ∧ (ctx.unchokeAttempts : Int) > cfg.MAX_UNCHOKE_ATTEMPTS - 1) := by
  cases afterMessage_cases hrun with
  | drops hchoked hmany => exact ⟨rfl, rfl, iff_of_true rfl (Or.inr ⟨hchoked, hmany⟩)⟩
  | unchoke _ hmany _ => exact ⟨rfl, rfl, (or_iff_left fun h => hmany h.2).symm⟩
  | waits _ hmany _ => exact ⟨rfl, rfl, (or_iff_left fun h => hmany h.2).symm⟩
  | busy hchoked _ => exact ⟨rfl, rfl, (or_iff_left fun h => hchoked h.1).symm⟩
  | @requests blocks pm hchoked _ _ =>
    obtain ⟨hhand, hclosed, hrecv⟩ := addRequests_sameLine blocks ctx
    refine ⟨hrecv, hhand, ?_⟩
    rw [hclosed]
    exact (or_iff_left fun h => hchoked h.1).symm

/-! ## The loop -/

/-- A connection, what it shares with the others, and the messages that were parsed so far. -/
structure Conn where
  ctx : PeerContext
  dl : Downloader
  parsed : List (MsgType × Bytes)

variable {choice : Nat → (UInt8 × Bytes) × Orders} {c c' d : Conn} {n : Nat}

namespace Conn

/-- The condition of the loop, whose body runs after the handshake only. -/
def HasMessage (c : Conn) : Prop :=
  c.ctx.closed = false ∧ c.ctx.handshaked = true ∧ IsCompleteMessage c.ctx.recvBuffer > 0

/-- One turn of the loop, which ends with `none` if it does not throw before. What the code does not decide by
itself is a choice for each turn. -/
def turn (cfg : Config) (choice : Nat → (UInt8 × Bytes) × Orders) (c : Conn) : Option Conn := do
  let (beyond, orders) := choice c.parsed.length
  let (msgType, message, _) ← nextMessage c.ctx beyond.1
  let (ctx, dl) ← onMessage cfg beyond orders c.ctx c.dl
  return ⟨ctx, dl, c.parsed ++ [(msgType, message)]⟩

/-- Bytes are received. -/
def recv (cfg : Config) (recvBytes : Bytes) (tick : Int) (c : Conn) : Conn :=
  { c with ctx := onReceive cfg recvBytes tick c.ctx }

/-- What everything else may do to a connection: nothing to the received bytes. -/
structure Idle (c c' : Conn) : Prop where
  recvBuffer : c'.ctx.recvBuffer = c.ctx.recvBuffer
  handshaked : c'.ctx.handshaked = c.ctx.handshaked
  closed : c.ctx.closed = true → c'.ctx.closed = true
  parsed : c'.parsed = c.parsed

/-- Reads and what they entail. Before each the connection is open, the loop after it runs to its end, and then
other things happen; an empty read is passed over. -/
inductive Receives (cfg : Config) (choice : Nat → (UInt8 × Bytes) × Orders) : List Bytes → Conn → Conn → Prop where
  | done (c : Conn) : Receives cfg choice [] c c
  | skip {reads : List Bytes} {c d : Conn} : Receives cfg choice reads c d → Receives cfg choice ([] :: reads) c d
  | read {recvBytes : Bytes} {reads : List Bytes} {tick : Int} {c c₁ c₂ d : Conn} : recvBytes ≠ [] →
      c.ctx.closed = false → Reaches (turn cfg choice) (c.recv cfg recvBytes tick) c₁ → ¬ c₁.HasMessage →
      c₁.Idle c₂ → Receives cfg choice reads c₂ d → Receives cfg choice (recvBytes :: reads) c d

/-- The number of bytes that a turn cuts off. -/
def size (c : Conn) : Nat := (IsCompleteMessage c.ctx.recvBuffer + 4) % 2 ^ 32

lemma nextMessage_eq {beyond : UInt8} {msgType : MsgType} {message : Bytes} {size : Nat}
    (h : nextMessage c.ctx beyond = some (msgType, message, size)) :
    c.HasMessage ∧ size = c.size ∧ parseMessage (c.ctx.recvBuffer.take size) beyond = some (msgType, message) := by
  unfold nextMessage at h
  simp only [] at h
  split at h
  · rename_i hmsg
    cases hparse : parseMessage (c.ctx.recvBuffer.take ((IsCompleteMessage c.ctx.recvBuffer + 4) % 2 ^ 32)) beyond with
    | none =>
      simp only [hparse, Option.bind_eq_bind, Option.bind_none] at h
      cases h
    | some r =>
      obtain ⟨t, m⟩ := r
      simp only [hparse, Option.bind_eq_bind, Option.bind_some] at h
      obtain ⟨rfl, hrest⟩ := Prod.mk.inj (Option.some.inj h)
      obtain ⟨rfl, rfl⟩ := Prod.mk.inj hrest
      exact ⟨hmsg, rfl, hparse⟩
  · cases h

/-- What a turn does, up to what it leaves alone. -/
lemma turn_cases (h : c.turn cfg choice = some c') :
    c.HasMessage ∧ ∃ (beyond : UInt8 × Bytes) (msgType : MsgType) (message : Bytes) (ctx₁ : PeerContext)
      (dl₁ : Downloader) (orders : Orders),
      parseMessage (c.ctx.recvBuffer.take c.size) beyond.1 = some (msgType, message) ∧
      handleMessage cfg msgType message beyond.2 c.ctx c.dl = some (ctx₁, dl₁) ∧
      afterMessage cfg orders ctx₁ dl₁ = some ({ c'.ctx with recvBuffer := c.ctx.recvBuffer }, c'.dl) ∧
      c'.ctx.recvBuffer = c.ctx.recvBuffer.drop c.size ∧ c'.ctx.handshaked = true ∧
      c'.parsed = c.parsed ++ [(msgType, message)] := by
  unfold turn at h
  cases hnext : nextMessage c.ctx (choice c.parsed.length).1.1 with
  | none => simp [hnext] at h
  | some r =>
    obtain ⟨msgType, message, size⟩ := r
    cases hrun : onMessage cfg (choice c.parsed.length).1 (choice c.parsed.length).2 c.ctx c.dl with
    | none => simp [hnext, hrun] at h
    | some r =>
      obtain ⟨ctx', dl'⟩ := r
      simp only [hnext, hrun, Option.bind_eq_bind, Option.bind_some] at h
      obtain rfl := Option.some.inj h
      obtain ⟨msgType', message', size', ctx₁, dl₁, ctx₂, hnext', hhandle, hafter, rfl⟩ := onMessage_cases hrun
      obtain ⟨rfl, rfl, rfl⟩ : msgType' = msgType ∧ message' = message ∧ size' = size := by
        simpa [hnext', eq_comm] using hnext
      obtain ⟨hmsg, rfl, hparse⟩ := nextMessage_eq hnext
      have hline := handleMessage_sameLine hhandle
      obtain ⟨hrecv, hhand, -⟩ := afterMessage_recvBuffer hafter
      have hsame : ctx₂.recvBuffer = c.ctx.recvBuffer := hrecv.trans hline.recvBuffer
      refine ⟨hmsg, _, msgType', message', ctx₁, dl₁, (choice c.parsed.length).2, hparse, hhandle, ?_, ?_, ?_, rfl⟩
      · rw [hafter]
        simp only [← hsame]
      · simp only [hsame]
      · exact (hhand.trans hline.handshaked).trans hmsg.2.1

/-! ## Whether the loop ends -/

/-- The length field does not overflow to a message of no bytes, or this turn closes the connection. -/
def Advances (cfg : Config) (ctx : PeerContext) : Prop :=
  ofBeBytes (ctx.recvBuffer.take 4) ≠ 2 ^ 32 - 4 ∨
    ctx.choked = true ∧ (ctx.unchokeAttempts : Int) > cfg.MAX_UNCHOKE_ATTEMPTS - 1

lemma HasMessage.length (h : c.HasMessage) :
    4 ≤ c.ctx.recvBuffer.length ∧ IsCompleteMessage c.ctx.recvBuffer = ofBeBytes (c.ctx.recvBuffer.take 4) := by
  have hpos := h.2.2
  unfold IsCompleteMessage at hpos ⊢
  by_cases hfour : c.ctx.recvBuffer.length < 4
  · rw [if_pos hfour] at hpos
    omega
  · rw [if_neg hfour] at hpos ⊢
    simp only [] at hpos ⊢
    split at hpos
    · rename_i hle
      exact ⟨by omega, if_pos hle⟩
    · omega

/-- The loop does not get past the keep-alive that peers send, either: four bytes that tell a length of 0. -/
theorem not_hasMessage_of_zeros {later : Bytes} (h : c.ctx.recvBuffer = zeros 4 ++ later) : ¬ c.HasMessage := by
  intro hmsg
  have hpos := hmsg.2.2
  rw [hmsg.length.2, h, List.take_left' (length_zeros 4)] at hpos
  exact absurd hpos (by decide)

lemma HasMessage.size_eq_zero_iff (h : c.HasMessage) :
    c.size = 0 ↔ ofBeBytes (c.ctx.recvBuffer.take 4) = 2 ^ 32 - 4 := by
  obtain ⟨hlen, heq⟩ := h.length
  have hlt := ofBeBytes_lt (c.ctx.recvBuffer.take 4)
  have hpow : (256 : Nat) ^ 4 = 2 ^ 32 := by norm_num
  rw [List.length_take_of_le hlen, hpow] at hlt
  rw [size, heq]
  omega

/-- A message of no bytes closes a connection that is to be closed, and changes nothing else about it. -/
lemma closed_of_size_eq_zero (h : c.turn cfg choice = some c') (hzero : c.size = 0) :
    c'.ctx.closed = true ↔ c.ctx.choked = true ∧ (c.ctx.unchokeAttempts : Int) > cfg.MAX_UNCHOKE_ATTEMPTS - 1 := by
  obtain ⟨hmsg, beyond, msgType, message, ctx₁, dl₁, orders, hparse, hhandle, hafter, -⟩ := turn_cases h
  obtain ⟨rfl, rfl⟩ : msgType = .Unknown ∧ message = [] := by
    simpa [hzero, parseMessage, eq_comm] using hparse
  obtain ⟨rfl, rfl⟩ : c.ctx = ctx₁ ∧ c.dl = dl₁ := Prod.mk.inj (Option.some.inj hhandle)
  have hclosed := (afterMessage_recvBuffer hafter).2.2
  simp only [hmsg.1, Bool.false_eq_true, false_or] at hclosed
  exact hclosed

/-- A turn that leaves the connection open shortens the buffer exactly if it finds no such message. -/
theorem shortens_iff (h : c.turn cfg choice = some c') :
    (c'.ctx.closed = false → c'.ctx.recvBuffer.length < c.ctx.recvBuffer.length) ↔ Advances cfg c.ctx := by
  obtain ⟨hmsg, -, -, -, -, -, -, -, -, -, hdrop, -⟩ := turn_cases h
  have hlen := hmsg.length.1
  rw [Advances, ne_eq, ← hmsg.size_eq_zero_iff, hdrop, List.length_drop]
  by_cases hzero : c.size = 0
  · have hclosed := closed_of_size_eq_zero h hzero
    rw [← hclosed, hzero]
    simp
  · refine iff_of_true (fun _ => by omega) (Or.inl hzero)

/-- Every turn of the loop that leaves the connection open shortens the buffer, and the loop ends. -/
def Terminates (cfg : Config) (choice : Nat → (UInt8 × Bytes) × Orders) (c : Conn) : Prop :=
  (∃ n, after (turn cfg choice) n c = none) ∧ ∀ d d', Reaches (turn cfg choice) c d → d.turn cfg choice = some d' →
    d'.ctx.closed = false → d'.ctx.recvBuffer.length < d.ctx.recvBuffer.length

/-- A loop whose turns shorten the buffer comes to an end. -/
lemma exists_after_eq_none
    (h : ∀ d d', Reaches (turn cfg choice) c d → d.turn cfg choice = some d' →
      d'.ctx.closed = false → d'.ctx.recvBuffer.length < d.ctx.recvBuffer.length) :
    ∃ n, after (turn cfg choice) n c = none := by
  induction hlen : c.ctx.recvBuffer.length using Nat.strong_induction_on generalizing c with
  | _ len ih =>
    cases hturn : c.turn cfg choice with
    | none => exact ⟨1, by rw [after, hturn, Option.bind_none]⟩
    | some c' =>
      by_cases hopen : c'.ctx.closed = false
      · have hlt := h c c' (Reaches.refl c) hturn hopen
        obtain ⟨n, hn⟩ := ih _ (hlen ▸ hlt)
          (fun d d' hd => h d d' (Reaches.head hturn hd)) rfl
        exact ⟨n + 1, by rw [after, hturn, Option.bind_some, hn]⟩
      · have hstop : c'.turn cfg choice = none := by
          cases hnext : c'.turn cfg choice with
          | none => rfl
          | some d => exact absurd (turn_cases hnext).1.1 hopen
        exact ⟨2, by rw [after, hturn, Option.bind_some, after, hstop, Option.bind_none]⟩

/-- For every content of the buffer, every context and every state of the piece manager: the loop ends and shortens
the buffer in every turn if and only if no turn finds a length field that overflows to a message of no bytes, unless
it closes the connection. -/
theorem terminates_iff (cfg : Config) (choice : Nat → (UInt8 × Bytes) × Orders) (c : Conn) :
    c.Terminates cfg choice ↔ ∀ d, Reaches (turn cfg choice) c d → d.turn cfg choice ≠ none → Advances cfg d.ctx := by
  constructor
  · rintro ⟨-, hshorter⟩ d hd hturn
    obtain ⟨d', hd'⟩ := Option.ne_none_iff_exists'.1 hturn
    exact (shortens_iff hd').1 (hshorter d d' hd hd')
  · intro h
    have hshorter : ∀ d d', Reaches (turn cfg choice) c d → d.turn cfg choice = some d' →
        d'.ctx.closed = false → d'.ctx.recvBuffer.length < d.ctx.recvBuffer.length := by
      intro d d' hd hturn
      exact (shortens_iff hturn).2 (h d hd (by rw [hturn]; exact Option.some_ne_none _))
    exact ⟨exists_after_eq_none hshorter, hshorter⟩

/-- The connection to a peer that sends its handshake and then the length 2 ^ 32 - 4. -/
def overflowing : Conn :=
  ⟨onReceive tiny (tiny.handshake ++ [255, 255, 255, 252]) 1
    ⟨3, false, true, false, 0, 0, 0, ∅, ∅, [], [], 0⟩, ⟨⟨∅, ∅⟩, []⟩, []⟩

/-- From the second turn on the request to unchoke is in place, and the turns change nothing any more. -/
theorem not_terminates_overflowing : ¬ ∀ cfg choice c, Terminates cfg choice c := by
  intro h
  let quiet : Nat → (UInt8 × Bytes) × Orders := fun _ => ((0, []), ⟨[], []⟩)
  let ctx : PeerContext := { overflowing.ctx with unchokeAttempts := 1, sendBuffer := buildUnchoke }
  have hfirst : turn tiny quiet overflowing = some ⟨ctx, overflowing.dl, [(.Unknown, [])]⟩ := rfl
  have hnext : nextMessage ctx 0 = some (.Unknown, [], 0) := by decide
  have hafter : afterMessage tiny ⟨[], []⟩ ctx overflowing.dl = some (ctx, overflowing.dl) := rfl
  have hagain : ∀ parsed, turn tiny quiet ⟨ctx, overflowing.dl, parsed⟩ =
      some ⟨ctx, overflowing.dl, parsed ++ [(.Unknown, [])]⟩ := by
    intro parsed
    simp only [turn, quiet, hnext, onMessage, handleMessage, hafter, Option.bind_eq_bind, Option.bind_some,
      List.drop_zero]
    rfl
  have hforever : ∀ n parsed, after (turn tiny quiet) n ⟨ctx, overflowing.dl, parsed⟩ ≠ none := by
    intro n
    induction n with
    | zero => exact fun _ => Option.some_ne_none _
    | succ n ih =>
      intro parsed
      rw [after, hagain, Option.bind_some]
      exact ih _
  obtain ⟨⟨n, hn⟩, -⟩ := h tiny quiet overflowing
  cases n with
  | zero => cases hn
  | succ n =>
    rw [after, hfirst, Option.bind_some] at hn
    exact hforever n _ hn

end Conn

/-! ## Streams of built messages -/

/-- The messages of the protocol, under the names of the code. -/
inductive Message where
  | KeepAlive
  | Choke
  | Unchoke
  | Interested
  | NotInterested
  | Have (pIndex : Nat)
  | Bitfield (bitfield : Bytes)
  | Request (pIndex pBegin pLength : Nat) (cancel : Bool)
  | Piece (pIndex pBegin : Nat) (block : Bytes)
  | Port (port : Nat)
  deriving DecidableEq

namespace Message

def build : Message → Option Bytes
  | KeepAlive => some buildKeepAlive
  | Choke => some buildChoke
  | Unchoke => some buildUnchoke
  | Interested => some buildInterested
  | NotInterested => some buildNotinterested
  | Have pIndex => some (buildHave pIndex)
  | Bitfield bitfield => buildBitField bitfield
  | Request pIndex pBegin pLength cancel => some (buildRequest pIndex pBegin pLength cancel)
  | Piece pIndex pBegin block => buildPiece pIndex pBegin block
  | Port port => some (buildPort port)

/-- The type and the payload that a message is to be parsed to. A bit field or block that is longer than its
length field can tell was cut off when it was built. -/
def content : Message → MsgType × Bytes
  | KeepAlive => (.KeepAlive, [])
  | Choke => (.Choke, [])
  | Unchoke => (.Unchoke, [])
  | Interested => (.Other 2, [])
  | NotInterested => (.Other 3, [])
  | Have pIndex => (.Have, beBytes 4 pIndex)
  | Bitfield bitfield => (.Bitfield, bitfield.take ((bitfield.length + 1) % 2 ^ 32 - 1))
  | Request pIndex pBegin pLength cancel =>
    (.Other (if cancel then 8 else 6), beBytes 4 pIndex ++ beBytes 4 pBegin ++ beBytes 4 pLength)
  | Piece pIndex pBegin block => (.Piece, beBytes 4 pIndex ++ beBytes 4 pBegin ++ block.take (block.length % 2 ^ 32))
  | Port port => (.Other 9, beBytes 2 port)

/-- Every built message but one is a length, an id and as many bytes as the length says. -/
lemma build_eq {m : Message} {bs : Bytes} (hm : m ≠ KeepAlive) (h : m.build = some bs) :
    ∃ (msgSize : Nat) (msgId : UInt8) (fields : Bytes), msgSize = fields.length + 1 ∧ msgSize + 4 < 2 ^ 32 ∧ msgId ≤ 9 ∧
      bs = buildMessageHelper msgSize msgId fields ∧ m.content = (MsgType.ofId msgId.toNat, fields) := by
  cases m with
  | KeepAlive => exact absurd rfl hm
  | Choke => exact ⟨1, 0, [], rfl, by decide, by decide, (Option.some.inj h).symm, rfl⟩
  | Unchoke => exact ⟨1, 1, [], rfl, by decide, by decide, (Option.some.inj h).symm, rfl⟩
  | Interested => exact ⟨1, 2, [], rfl, by decide, by decide, (Option.some.inj h).symm, rfl⟩
  | NotInterested => exact ⟨1, 3, [], rfl, by decide, by decide, (Option.some.inj h).symm, rfl⟩
  | Have pIndex =>
    exact ⟨5, 4, beBytes 4 pIndex, by rw [length_beBytes], by decide, by decide, (Option.some.inj h).symm, rfl⟩
  | Port port =>
    exact ⟨3, 9, beBytes 2 port, by rw [length_beBytes], by decide, by decide, (Option.some.inj h).symm, rfl⟩
  | Request pIndex pBegin pLength cancel =>
    refine ⟨13, if cancel then 8 else 6, beBytes 4 pIndex ++ beBytes 4 pBegin ++ beBytes 4 pLength, ?_, by decide, ?_,
      (Option.some.inj h).symm, ?_⟩
    · simp only [List.length_append, length_beBytes]
    · cases cancel <;> decide
    · cases cancel <;> rfl
  | Bitfield bitfield =>
    rw [build, buildBitField] at h
    split at h
    · rename_i hsize
      obtain rfl := Option.some.inj h
      refine ⟨_, _, _, ?_, hsize.2, by decide, rfl, rfl⟩
      have hle := Nat.mod_le (bitfield.length + 1) (2 ^ 32)
      rw [List.length_take_of_le (by omega)]
      omega
    · cases h
  | Piece pIndex pBegin block =>
    rw [build, buildPiece] at h
    split at h
    · rename_i hsize
      obtain rfl := Option.some.inj h
      refine ⟨_, _, _, ?_, by omega, by decide, rfl, rfl⟩
      have hle := Nat.mod_le block.length (2 ^ 32)
      rw [List.length_append, List.length_append, length_beBytes, length_beBytes, List.length_take_of_le hle]
      omega
    · cases h

end Message

namespace Conn

open Message (build content)

/-- Where the loop stands in a stream of messages: what it parsed, the messages that are still to come, and the bytes
of them that have not arrived. -/
def Synced (expected : List (MsgType × Bytes)) (rest : Bytes) (c : Conn) : Prop :=
  ∃ msgs built, List.Forall₂ (fun m bs => Message.build m = some bs) msgs built ∧ .KeepAlive ∉ msgs ∧
    c.ctx.recvBuffer ++ rest = built.flatten ∧ c.parsed ++ msgs.map content = expected

variable {expected : List (MsgType × Bytes)} {rest : Bytes}

/-- A turn cuts off and parses the next message of the stream. -/
lemma Synced.turn (h : Synced expected rest c) (hturn : c.turn cfg choice = some c') : Synced expected rest c' ∧
    c'.ctx.recvBuffer.length < c.ctx.recvBuffer.length := by
  obtain ⟨msgs, built, hbuilt, hkeep, hbytes, hparsed⟩ := h
  obtain ⟨hmsg, beyond, msgType, message, -, -, -, hparse, -, -, hdrop, -, hlog⟩ := turn_cases hturn
  cases hbuilt with
  | nil =>
    have hnil := (List.append_eq_nil_iff.1 hbytes).1
    have hlen := hmsg.length.1
    rw [hnil] at hlen
    cases hlen
  | @cons m bs msgs built hm hbuilt =>
    rw [List.mem_cons, not_or] at hkeep
    obtain ⟨msgSize, msgId, fields, hsize, hlt, hid, rfl, hcontent⟩ := Message.build_eq (Ne.symm hkeep.1) hm
    have hlen : (buildMessageHelper msgSize msgId fields).length = msgSize + 4 := length_buildMessageHelper hsize
    rw [List.flatten_cons] at hbytes
    have hfront : ∃ more, c.ctx.recvBuffer = buildMessageHelper msgSize msgId fields ++ more ∧
        more ++ rest = built.flatten := by
      rcases List.append_eq_append_iff.1 hbytes with ⟨lack, hlack, hrest⟩ | ⟨more, hmore, hrest⟩
      · by_cases hnil : lack = []
        · rw [hnil, List.append_nil] at hlack
          exact ⟨[], by rw [hlack, List.append_nil], by rw [hrest, hnil, List.nil_append, List.nil_append]⟩
        · have hzero := IsCompleteMessage_partial hsize hlt hlack.symm hnil
          exact absurd hmsg.2.2 (by omega)
      · exact ⟨more, hmore, hrest.symm⟩
    obtain ⟨more, hmore, hrest⟩ := hfront
    have hcut : c.size = (buildMessageHelper msgSize msgId fields).length := by
      rw [size, hmore, IsCompleteMessage_append hsize hlt, hlen, Nat.mod_eq_of_lt hlt]
    rw [hcut, hmore, List.take_left, parseMessage_build hid] at hparse
    rw [hcut, hmore, List.drop_left] at hdrop
    obtain ⟨rfl, rfl⟩ := Prod.mk.inj (Option.some.inj hparse)
    refine ⟨⟨msgs, built, hbuilt, hkeep.2, by rw [hdrop, hrest], ?_⟩, ?_⟩
    · rw [hlog, ← hparsed, List.map_cons, hcontent, List.append_assoc]
      rfl
    · rw [hdrop, hmore, List.length_append]
      omega

lemma Synced.loop (h : Synced expected rest c) (hloop : Reaches (Conn.turn cfg choice) c d) :
    Synced expected rest d := hloop.preserves _ (fun _ _ hd hturn => (hd.turn hturn).1) h

lemma Synced.terminates (h : Synced expected rest c) : ∃ n, after (Conn.turn cfg choice) n c = none := by
  apply exists_after_eq_none
  intro d d' hd hturn _
  exact ((h.loop hd).turn hturn).2

/-- Where no message is complete once all bytes have arrived, all messages are parsed. -/
lemma Synced.parsed (h : Synced expected [] c) (hopen : c.ctx.closed = false) (hhand : c.ctx.handshaked = true)
    (hstop : ¬ c.HasMessage) : c.parsed = expected ∧ c.ctx.recvBuffer = [] := by
  obtain ⟨msgs, built, hbuilt, hkeep, hbytes, hparsed⟩ := h
  rw [List.append_nil] at hbytes
  cases hbuilt with
  | nil => exact ⟨by simpa using hparsed, hbytes⟩
  | @cons m bs msgs built hm hbuilt =>
    rw [List.mem_cons, not_or] at hkeep
    obtain ⟨msgSize, msgId, fields, hsize, hlt, -, rfl, -⟩ := Message.build_eq (Ne.symm hkeep.1) hm
    rw [List.flatten_cons] at hbytes
    refine absurd ⟨hopen, hhand, ?_⟩ hstop
    rw [hbytes, IsCompleteMessage_append hsize hlt]
    omega

lemma recv_eq (cfg : Config) (hhand : c.ctx.handshaked = true) (recvBytes : Bytes) (tick : Int) :
    (c.recv cfg recvBytes tick).ctx.recvBuffer = c.ctx.recvBuffer ++ recvBytes ∧
      (c.recv cfg recvBytes tick).ctx.handshaked = true ∧ (c.recv cfg recvBytes tick).parsed = c.parsed := by
  simp [recv, onReceive, hhand]

lemma Synced.recv (cfg : Config) {recvBytes : Bytes} (h : Synced expected (recvBytes ++ rest) c)
    (hhand : c.ctx.handshaked = true)
    (tick : Int) : Synced expected rest (Conn.recv cfg recvBytes tick c) := by
  obtain ⟨msgs, built, hbuilt, hkeep, hbytes, hparsed⟩ := h
  obtain ⟨hrecv, -, hlog⟩ := recv_eq cfg hhand recvBytes tick
  exact ⟨msgs, built, hbuilt, hkeep, by rw [hrecv, List.append_assoc, hbytes], by rw [hlog, hparsed]⟩

lemma Synced.idle (h : Synced expected rest c) (hidle : c.Idle c') : Synced expected rest c' := by
  obtain ⟨msgs, built, hbuilt, hkeep, hbytes, hparsed⟩ := h
  exact ⟨msgs, built, hbuilt, hkeep, by rw [hidle.recvBuffer, hbytes], by rw [hidle.parsed, hparsed]⟩

lemma handshaked_loop (hloop : Reaches (turn cfg choice) c d) (h : c.ctx.handshaked = true) :
    d.ctx.handshaked = true := by
  refine hloop.preserves (fun c => c.ctx.handshaked = true) ?_ h
  intro c c' _ hturn
  obtain ⟨-, -, -, -, -, -, -, -, -, -, -, hhand, -⟩ := turn_cases hturn
  exact hhand

/-- The states in which the loop waits for more bytes. -/
structure Waiting (expected : List (MsgType × Bytes)) (rest : Bytes) (c : Conn) : Prop where
  synced : Synced expected rest c
  handshaked : c.ctx.handshaked = true
  idle : c.ctx.closed = false → ¬ c.HasMessage

lemma Waiting.receives {reads : List Bytes} (h : Waiting expected (reads.flatten ++ rest) c)
    (hrun : Receives cfg choice reads c d) : Waiting expected rest d := by
  induction hrun with
  | done c => exact h
  | skip _ ih => exact ih h
  | @read recvBytes reads tick c c₁ c₂ d _ hopen hloop hstop hidle _ ih =>
    rw [List.flatten_cons, List.append_assoc] at h
    apply ih
    have hhand := handshaked_loop hloop (recv_eq cfg h.handshaked recvBytes tick).2.1
    refine ⟨((h.synced.recv cfg h.handshaked tick).loop hloop).idle hidle, hidle.handshaked.trans hhand, ?_⟩
    intro _ hmsg
    refine hstop ⟨?_, hhand, hidle.recvBuffer ▸ hmsg.2.2⟩
    by_contra hclosed
    exact Bool.false_ne_true (hmsg.1.symm.trans (hidle.closed (by simpa using hclosed)))

lemma parseMessage_ne_keepAlive {message payload : Bytes} {beyond : UInt8} {msgType : MsgType}
    (h : parseMessage message beyond = some (msgType, payload)) : msgType ≠ .KeepAlive := by
  unfold parseMessage at h
  simp only [] at h
  split at h
  · obtain ⟨rfl, -⟩ := Prod.mk.inj (Option.some.inj h)
    decide
  · split at h
    · obtain ⟨rfl, -⟩ := Prod.mk.inj (Option.some.inj h)
      decide
    · rename_i hid
      split at h
      · cases h
      · obtain ⟨rfl, -⟩ := Prod.mk.inj (Option.some.inj h)
        have hle : (message.getD 4 beyond).toNat ≤ 9 := UInt8.le_iff_toNat_le.1 (by simpa using hid)
        unfold MsgType.ofId MsgType.KeepAlive
        split
        all_goals grind

/-- Nothing that the loop parses is a keep-alive. -/
lemma Receives.parsed_ne {reads : List Bytes} (hrun : Receives cfg choice reads c d)
    (h : ∀ x ∈ c.parsed, x.1 ≠ MsgType.KeepAlive) : ∀ x ∈ d.parsed, x.1 ≠ MsgType.KeepAlive := by
  induction hrun with
  | done c => exact h
  | skip _ ih => exact ih h
  | @read recvBytes reads tick c c₁ c₂ d _ _ hloop _ hidle _ ih =>
    apply ih
    rw [hidle.parsed]
    refine hloop.preserves (fun c => ∀ x ∈ c.parsed, x.1 ≠ MsgType.KeepAlive) ?_ h
    intro c c' hc hturn
    obtain ⟨-, beyond, msgType, message, -, -, -, hparse, -, -, -, -, hlog⟩ := turn_cases hturn
    rw [hlog]
    intro x hx
    rcases List.mem_append.1 hx with hx | hx
    · exact hc x hx
    · obtain rfl := List.mem_singleton.1 hx
      exact parseMessage_ne_keepAlive hparse

/-- The connection as the handshake leaves it. -/
structure Fresh (c : Conn) : Prop where
  handshaked : c.ctx.handshaked = true
  recvBuffer : c.ctx.recvBuffer = []
  parsed : c.parsed = []

/-- The loop after each of the reads comes to its end. -/
def LoopsEnd (cfg : Config) (choice : Nat → (UInt8 × Bytes) × Orders) (reads : List Bytes) (c : Conn) : Prop :=
  ∀ front recvBytes later tick d, reads = front ++ recvBytes :: later → Receives cfg choice front c d →
    ∃ n, after (turn cfg choice) n (d.recv cfg recvBytes tick) = none

/-- A connection to a peer that shook hands and was told nothing yet. -/
def shaken : Conn := ⟨⟨3, true, true, false, 0, 0, 0, ∅, ∅, [], [], 0⟩, ⟨⟨∅, ∅⟩, []⟩, []⟩

lemma shaken_fresh : shaken.Fresh := ⟨rfl, rfl, rfl⟩

lemma Idle.refl (c : Conn) : c.Idle c := ⟨rfl, rfl, id, rfl⟩

end Conn

end CppExperiments.Torrent
