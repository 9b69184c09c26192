import CppExperiments.Torrent.Lines

/-!
# The bytes on the wire

The send buffer is appended to, replaced and sent in parts. What is sent on a connection is the handshake and then
whole messages, one after the other, as long as the buffer is replaced only where no message is partly sent.
-/

namespace CppExperiments.Torrent

open PieceManager (Orders)

/-- The number of payload bytes that go with an id. -/
def FitsId (msgId : UInt8) (n : Nat) : Prop :=
  match msgId.toNat with
  | 0 | 1 | 2 | 3 => n = 0
  | 4 => n = 4
  | 5 => True
  | 6 | 8 => n = 12
  | 7 => 8 ≤ n
  | 9 => n = 2
  | _ => False

/-- The messages of the protocol: a keep-alive, or an id and a payload that goes with it behind their length. -/
def WellFormed (m : Bytes) : Prop :=
  m = zeros 4 ∨ ∃ msgId fields, fields.length + 1 < 2 ^ 32 ∧ FitsId msgId fields.length ∧
    m = buildMessageHelper (fields.length + 1) msgId fields

/-- The handshake and whole messages. -/
def Whole (cfg : Config) (wire : Bytes) : Prop :=
  ∃ ms : List Bytes, (∀ m ∈ ms, WellFormed m) ∧ wire = cfg.handshake ++ ms.flatten

/-- A part of the handshake, or the handshake, whole messages and a part of one. -/
def Framed (cfg : Config) (wire : Bytes) : Prop :=
  ∃ ms : List Bytes, (∀ m ∈ ms, WellFormed m) ∧ wire <+: cfg.handshake ++ ms.flatten

variable {cfg : Config} {w : World} {e : Event} {ctx ctx' : PeerContext} {dl dl' : Downloader} {line line' : Line}
  {wire : Bytes} {ms : List Bytes}

lemma wellFormed_interested : WellFormed buildInterested :=
  Or.inr ⟨2, [], by decide, rfl, rfl⟩

lemma wellFormed_unchoke : WellFormed buildUnchoke :=
  Or.inr ⟨1, [], by decide, rfl, rfl⟩

lemma wellFormed_request (pIndex pBegin pLength : Nat) (cancel : Bool) :
    WellFormed (buildRequest pIndex pBegin pLength cancel) := by
  have hlen : (beBytes 4 pIndex ++ beBytes 4 pBegin ++ beBytes 4 pLength).length = 12 := by
    simp only [List.length_append, length_beBytes]
  refine Or.inr ⟨if cancel then 8 else 6, beBytes 4 pIndex ++ beBytes 4 pBegin ++ beBytes 4 pLength, ?_, ?_, ?_⟩
  · rw [hlen]
    decide
  · rw [hlen]
    cases cancel <;> rfl
  · rw [hlen]
    rfl

lemma Whole.append (h : Whole cfg wire) (hms : ∀ m ∈ ms, WellFormed m) : Whole cfg (wire ++ ms.flatten) := by
  obtain ⟨front, hfront, rfl⟩ := h
  refine ⟨front ++ ms, ?_, by rw [List.flatten_append, List.append_assoc]⟩
  intro m hm
  exact (List.mem_append.1 hm).elim (hfront m) (hms m)

lemma Whole.framed (h : Whole cfg wire) {part : Bytes} (hpart : part <+: wire) : Framed cfg part := by
  obtain ⟨ms, hms, rfl⟩ := h
  exact ⟨ms, hms, hpart⟩

/-! ## What is put into the send buffer -/

lemma addRequests_sendBuffer (blocks : List PieceBlock) (ctx : PeerContext) :
    (blocks.foldl addRequest ctx).sendBuffer = ctx.sendBuffer ++ (blocks.map PieceBlock.request).flatten := by
  induction blocks generalizing ctx with
  | nil => simp
  | cons blk rest ih =>
    rw [List.foldl_cons, ih, List.map_cons, List.flatten_cons, ← List.append_assoc]
    rfl

lemma answers_wellFormed (orders : Orders) (ctx : PeerContext) (dl : Downloader) :
    ∀ m ∈ answers cfg orders ctx dl, WellFormed m := by
  intro m hm
  unfold answers at hm
  split at hm
  · split at hm
    · cases hm
    · split at hm
      · obtain rfl := List.mem_singleton.1 hm
        exact wellFormed_unchoke
      · cases hm
  · split at hm
    · split at hm
      · cases hm
      · obtain ⟨blk, -, rfl⟩ := List.mem_map.1 hm
        exact wellFormed_request _ _ _ _
    · cases hm

lemma cancels_wellFormed (ctx : PeerContext) : ∀ m ∈ cancels ctx, WellFormed m := by
  intro m hm
  obtain ⟨e, -, rfl⟩ := List.mem_map.1 hm
  exact wellFormed_request _ _ _ _

/-- A choking peer is asked to unchoke in place of whatever is to be sent; everything else is sent behind it. -/
lemma afterMessage_sendBuffer {orders : Orders} (hrun : afterMessage cfg orders ctx dl = some (ctx', dl')) :
    ctx'.sendBuffer = ctx.sendBuffer ++ (answers cfg orders ctx dl).flatten ∨
    (ctx.choked = true ∧ ¬ (ctx.unchokeAttempts : Int) > cfg.MAX_UNCHOKE_ATTEMPTS - 1 ∧
      ctx.sendBuffer ≠ buildUnchoke) ∧ ctx'.sendBuffer = (answers cfg orders ctx dl).flatten := by
  unfold answers
  cases afterMessage_cases hrun with
  | drops hchoked hmany =>
    rw [if_pos hchoked, if_pos hmany]
    exact Or.inl (List.append_nil _).symm
  | unchoke hchoked hmany hsend =>
    rw [if_pos hchoked, if_neg hmany, if_pos hsend]
    exact Or.inr ⟨⟨hchoked, hmany, hsend⟩, (List.append_nil _).symm⟩
  | waits hchoked hmany hsend =>
    rw [if_pos hchoked, if_neg hmany, if_neg (not_not.2 hsend)]
    exact Or.inl (List.append_nil _).symm
  | busy hchoked hroom =>
    rw [if_neg hchoked, if_neg hroom]
    exact Or.inl (List.append_nil _).symm
  | @requests blocks pm hchoked hroom hget =>
    rw [if_neg hchoked, if_pos hroom, hget]
    exact Or.inl (addRequests_sendBuffer blocks ctx)

/-- Whether a peer chokes once a message is handled. -/
lemma handleMessage_choked {msgType : MsgType} {message beyond : Bytes}
    (hrun : handleMessage cfg msgType message beyond ctx dl = some (ctx', dl')) (hchoked : ctx'.choked = true) :
    (msgType = .Choke ∨ ctx.choked = true ∧ msgType ≠ .Unchoke) ∧ ctx'.unchokeAttempts = ctx.unchokeAttempts := by
  cases msgType with
  | Piece =>
    rcases handlePiece_eq hrun with ⟨rfl, -⟩ | rfl
    · exact ⟨Or.inr ⟨hchoked, by decide⟩, rfl⟩
    · exact ⟨Or.inr ⟨hchoked, by decide⟩, rfl⟩
  | Choke =>
    obtain ⟨ctx₁, hclear, rfl⟩ := handleChoke_cases hrun
    obtain rfl := clearPendingFromPeer_eq hclear
    exact ⟨Or.inl rfl, rfl⟩
  | Unchoke =>
    obtain ⟨rfl, -⟩ := Prod.mk.inj (Option.some.inj hrun)
    cases hchoked
  | Bitfield =>
    obtain ⟨rfl, -⟩ := Prod.mk.inj (Option.some.inj hrun)
    unfold handleBitfield at hchoked ⊢
    split
    · rename_i hlen
      rw [if_pos hlen] at hchoked
      exact ⟨Or.inr ⟨hchoked, by decide⟩, rfl⟩
    · rename_i hlen
      rw [if_neg hlen] at hchoked
      exact ⟨Or.inr ⟨hchoked, by decide⟩, rfl⟩
  | Have | Unknown =>
    obtain ⟨rfl, -⟩ := Prod.mk.inj (Option.some.inj hrun)
    exact ⟨Or.inr ⟨hchoked, by decide⟩, rfl⟩
  | Other n =>
    obtain ⟨rfl, -⟩ := Prod.mk.inj (Option.some.inj hrun)
    exact ⟨Or.inr ⟨hchoked, fun h => by cases h⟩, rfl⟩

/-! ## Runs -/

/-- The message has the code ask the peer to unchoke. -/
def AsksUnchoke (cfg : Config) (msgType : MsgType) (ctx : PeerContext) : Prop :=
  (msgType = .Choke ∨ ctx.choked = true ∧ msgType ≠ .Unchoke) ∧
    ¬ (ctx.unchokeAttempts : Int) > cfg.MAX_UNCHOKE_ATTEMPTS - 1 ∧ ctx.sendBuffer ≠ buildUnchoke

/-- The event replaces the content of the send buffer on a connection that stays. -/
def Replaces (cfg : Config) (ctx : PeerContext) : Event → Prop
  | .receive _ recvBytes _ => Shakes cfg ctx recvBytes
  | .message _ beyond _ => ∃ msgType message size,
      nextMessage ctx beyond.1 = some (msgType, message, size) ∧ AsksUnchoke cfg msgType ctx
  | .sweep _ tick _ => TimesOut cfg ctx tick
  | .sent _ _ | .failure _ => False

/-- The content of the send buffer is replaced only where no part of a message was sent without the rest. -/
def Intact (cfg : Config) (o : Observed) (e : Event) : Prop :=
  ∀ id ctx, o.w.subject e = some (id, ctx) → Replaces cfg ctx e → Whole cfg (o.lines id).wire

/-- What was sent and what is to be sent make up the handshake and whole messages. -/
theorem LineStep.whole (hstep : LineStep cfg w e ctx line ctx' line') (h : Whole cfg (line.wire ++ ctx.sendBuffer))
    (hintact : Replaces cfg ctx e → Whole cfg line.wire) : Whole cfg (line'.wire ++ ctx'.sendBuffer) := by
  cases hstep with
  | rest hsend _ =>
    rw [hsend]
    exact h
  | shakes _ hshakes hsend _ =>
    rw [hsend, ← List.flatten_singleton (l := buildInterested)]
    refine (hintact hshakes).append ?_
    rintro m hm
    obtain rfl := List.mem_singleton.1 hm
    exact wellFormed_interested
  | @message fd beyond orders msgType message size ctx ctx₁ ctx₂ dl₁ dl₂ line hnext hhandle hafter =>
    have hsame := (handleMessage_sameLine hhandle).sendBuffer
    have hms : ∀ m ∈ answers cfg orders ctx₁ dl₁, WellFormed m := answers_wellFormed orders ctx₁ dl₁
    change Whole cfg (line.wire ++ ctx₂.sendBuffer)
    rcases afterMessage_sendBuffer hafter with hsend | ⟨⟨hchoked, hmany, hdiffers⟩, hsend⟩
    · rw [hsend, hsame, ← List.append_assoc]
      exact h.append hms
    · rw [hsend]
      obtain ⟨hasks, hattempts⟩ := handleMessage_choked hhandle hchoked
      rw [hattempts] at hmany
      rw [hsame] at hdiffers
      exact (hintact ⟨msgType, message, size, hnext, hasks, hmany, hdiffers⟩).append hms
  | sent _ =>
    simpa only [List.append_assoc, List.take_append_drop] using h
  | timesOut hlate => exact (hintact hlate).append (cancels_wellFormed ctx)
  | reconnects _ hsend _ =>
    rw [hsend]
    exact ⟨[], by simp, by simp⟩

/-- On every run of the downloader in which the send buffer is replaced only where no message is partly sent: what was
sent on a connection, and whatever part of the buffer a send takes, is a prefix of the handshake followed by
well-formed messages. -/
theorem framed_of_intact (cfg : Config) (w : World) (events : List Event)
    (hstart : ∀ id ctx, w.states.lookup id = some ctx → ctx.sendBuffer = cfg.handshake)
    (hintact : Along (Observed.step cfg) (Intact cfg) (.start w) events) :
    ∀ o ∈ visits (Observed.step cfg) (.start w) events, ∀ id ctx, o.w.states.lookup id = some ctx →
      ∀ sentBytes, Framed cfg ((o.lines id).wire ++ ctx.sendBuffer.take sentBytes) := by
  have hinv : ∀ o ∈ visits (Observed.step cfg) (.start w) events, ∀ id ctx, o.w.states.lookup id = some ctx →
      Whole cfg ((o.lines id).wire ++ ctx.sendBuffer) := by
    refine forall_visits (I := fun o => ∀ id ctx, o.w.states.lookup id = some ctx →
      Whole cfg ((o.lines id).wire ++ ctx.sendBuffer)) ?_ ?_ hintact
    · intro o e o' h hgood hrun
      refine Observed.forall_step (P := fun ctx line => Whole cfg (line.wire ++ ctx.sendBuffer)) h ?_ hrun
      intro id ctx ctx' line' hsubject hctx hline
      exact hline.whole hctx fun hreplaces => hgood id ctx hsubject hreplaces
    · intro id ctx hl
      rw [hstart id ctx hl]
      exact ⟨[], by simp, by simp [Observed.start]⟩
  intro o ho id ctx hl sentBytes
  exact (hinv o ho id ctx hl).framed (List.prefix_append_right_inj _ |>.2 (List.take_prefix _ _))

lemma initial_sendBuffer : ∀ id ctx, onePeer.states.lookup id = some ctx → ctx.sendBuffer = tiny.handshake := by
  intro id ctx hl
  obtain rfl := mem_singleton_states rfl hl
  obtain rfl := Option.some.inj hl
  rfl

/-- The handshake is sent as a whole before the one of the peer arrives. -/
def whollySent : List Event := [.sent 3 68, .receive 3 tiny.handshake 1]

/-- Three bytes of the answer make up a stream with it. -/
theorem framed_of_intact_handshake : ∃ o ∈ visits (Observed.step tiny) (.start onePeer) whollySent,
    ∃ ctx, o.w.states.lookup [] = some ctx ∧ (o.lines []).wire = tiny.handshake ∧
      Framed tiny ((o.lines []).wire ++ ctx.sendBuffer.take 3) := by
  have hintact : Along (Observed.step tiny) (Intact tiny) (.start onePeer) whollySent := by
    refine ⟨fun _ _ _ h => h.elim, ?_, trivial⟩
    intro id ctx hsubject _
    obtain ⟨rfl, -⟩ := Prod.mk.inj (Option.some.inj hsubject)
    exact ⟨[], by simp, by decide⟩
  have hmem := List.getLast_mem (l := visits (Observed.step tiny) (.start onePeer) whollySent) (by decide)
  refine ⟨_, hmem, _, rfl, by decide, ?_⟩
  exact framed_of_intact tiny onePeer whollySent initial_sendBuffer hintact _ hmem [] _ rfl 3

/-! ## A message that is replaced half-way -/

/-- How a stream of messages starts. -/
lemma prefix_cases {bs : Bytes} (hms : ∀ m ∈ ms, WellFormed m) (h : bs <+: ms.flatten) (hlen : 4 < bs.length) :
    (bs.take 4 = zeros 4 ∧ ∃ ms' : List Bytes, (∀ m ∈ ms', WellFormed m) ∧ bs.drop 4 <+: ms'.flatten) ∨
    ∃ msgId n, bs[4]? = some msgId ∧ ofBeBytes (bs.take 4) = n + 1 ∧ FitsId msgId n := by
  cases ms with
  | nil =>
    rw [List.prefix_nil.1 h] at hlen
    cases hlen
  | cons m ms =>
    rw [List.forall_mem_cons] at hms
    rw [List.flatten_cons] at h
    obtain ⟨later, hlater⟩ := id h
    have htake : bs.take 4 = (m ++ ms.flatten).take 4 := by
      rw [← hlater, List.take_append_of_le_length hlen.le]
    rcases hms.1 with rfl | ⟨msgId, fields, hlt, hfits, rfl⟩
    · refine Or.inl ⟨by rw [htake, List.take_left' (length_zeros 4)], ms, hms.2, ?_⟩
      have hdrop := h.drop 4
      rwa [List.drop_left' (length_zeros 4)] at hdrop
    · refine Or.inr ⟨msgId, fields.length, ?_, ?_, hfits⟩
      · have hget : (bs ++ later)[4]? = bs[4]? := List.getElem?_append_left hlen
        rw [← hget, hlater, buildMessageHelper, List.append_assoc, List.getElem?_append_right (length_beBytes 4 _).le,
          length_beBytes]
        rfl
      · rw [htake, ofBeBytes_take_four hlt]

/-- The peer talks on while the request to unchoke is on its way: it is replaced after three bytes. -/
def partlySent : List Event :=
  [.sent 3 68, .receive 3 (tiny.handshake ++ buildInterested) 1, .message 3 (0, []) ⟨[], []⟩, .sent 3 3,
    .receive 3 buildInterested 2, .message 3 (0, []) ⟨[], []⟩, .sent 3 5,
    .receive 3 buildInterested 3, .message 3 (0, []) ⟨[], []⟩, .sent 3 5]

/-- What arrives is a keep-alive and then a message of 257 bytes with the id of a choke. -/
theorem not_framed_partlySent : ¬ ∀ (cfg : Config) (w : World) (events : List Event),
    (∀ id ctx, w.states.lookup id = some ctx → ctx.sendBuffer = cfg.handshake) →
    ∀ o ∈ visits (Observed.step cfg) (.start w) events, ∀ id ctx, o.w.states.lookup id = some ctx →
      Framed cfg (o.lines id).wire := by
  intro h
  have hlast : ∃ o, o ∈ visits (Observed.step tiny) (.start onePeer) partlySent ∧
    (∃ ctx, o.w.states.lookup [] = some ctx) ∧
      (o.lines []).wire = tiny.handshake ++ [0, 0, 0, 0, 0, 0, 1, 1, 0, 0, 0, 1, 1] := by
    refine ⟨(visits (Observed.step tiny) (.start onePeer) partlySent).getLast (by decide), List.getLast_mem _, ?_, ?_⟩
    · exact ⟨_, rfl⟩
    · decide
  obtain ⟨o, hmem, ⟨ctx, hl⟩, hwire⟩ := hlast
  obtain ⟨ms, hms, hframed⟩ := h tiny onePeer partlySent initial_sendBuffer o hmem [] ctx hl
  rw [hwire, List.prefix_append_right_inj] at hframed
  rcases prefix_cases hms hframed (by decide) with ⟨-, ms', hms', hrest⟩ | ⟨msgId, n, -, hn, -⟩
  · rcases prefix_cases hms' hrest (by decide) with ⟨hzero, -⟩ | ⟨msgId, n, hid, hn, hfits⟩
    · exact absurd hzero (by decide)
    · obtain rfl : (0 : UInt8) = msgId := Option.some.inj hid
      obtain rfl : n = 256 := by
        have hlength : ofBeBytes ([0, 0, 1, 1] : Bytes) = 257 := by decide
        exact Nat.succ.inj (hn.symm.trans hlength)
      cases hfits
  · have hzero : ofBeBytes ([0, 0, 0, 0] : Bytes) = 0 := by decide
    cases hn.symm.trans hzero

end CppExperiments.Torrent
