import CppExperiments.Lib.Text

/-!
# The peer protocol

The messages the downloader builds, and the framing and parsing of those it receives.
-/

namespace CppExperiments.Torrent

/-- `MsgType`, as far as the downloader tells messages apart by it. -/
inductive MsgType where
  | Choke
  | Unchoke
  | Have
  | Bitfield
  | Piece
  | Other (id : Nat)
  | Unknown
  deriving DecidableEq

def MsgType.ofId : Nat → MsgType
  | 0 => Choke
  | 1 => Unchoke
  | 4 => Have
  | 5 => Bitfield
  | 7 => Piece
  | id => Other id

/-- The fields fill the buffer behind length and id. -/
def buildMessageHelper (msgSize : Nat) (msgId : UInt8) (fields : Bytes) : Bytes :=
  beBytes 4 msgSize ++ msgId :: fields

def buildInterested : Bytes := buildMessageHelper 1 2 []

def buildUnchoke : Bytes := buildMessageHelper 1 1 []

def buildRequest (pIndex pBegin pLength : Nat) (cancel : Bool) : Bytes :=
  buildMessageHelper 13 (if cancel then 8 else 6) (beBytes 4 pIndex ++ beBytes 4 pBegin ++ beBytes 4 pLength)

def buildHandshake (infoHash peerID : Bytes) : Bytes :=
  19 :: ascii "BitTorrent protocol" ++ zeros 8 ++ infoHash ++ peerID

/-- The length of the first message if it is complete, and else 0; `msgLen + 4` is 32-bit arithmetic. -/
def IsCompleteMessage (buffer : Bytes) : Nat :=
  if buffer.length < 4 then 0
  else
    let msgLen := ofBeBytes (buffer.take 4)
    if buffer.length ≥ (msgLen + 4) % 2 ^ 32 then msgLen else 0

/-- `none` where `substr` throws. The comparison with a literal of NUL characters is one with the empty
string, so that no message of four bytes is a keep-alive. -/
def parseMessage (message : Bytes) (beyond : UInt8) : Option (MsgType × Bytes) :=
  if message.length < 4 then some (.Unknown, [])
  else
    let msgId := message.getD 4 beyond
    if msgId > 9 then some (.Unknown, [])
    else if message.length < 5 then none
    else some (MsgType.ofId msgId.toNat, message.drop 5)

/-- The enumerators that no message received is given. -/
def MsgType.KeepAlive : MsgType := Other 99

def buildNotinterested : Bytes := buildMessageHelper 1 3 []

/-- `std::string{4, '\0'}` is the string of the two characters listed. -/
def buildKeepAlive : Bytes := [4, 0]

def buildChoke : Bytes := buildMessageHelper 1 0 []

def buildHave (pIndex : Nat) : Bytes := buildMessageHelper 5 4 (beBytes 4 pIndex)

/-- `none` where the buffer, whose size is 32-bit arithmetic, does not hold what is copied into it. -/
def buildBitField (bitfield : Bytes) : Option Bytes :=
  let msgSize := (bitfield.length + 1) % 2 ^ 32
  if 0 < msgSize ∧ msgSize + 4 < 2 ^ 32 then some (buildMessageHelper msgSize 5 (bitfield.take (msgSize - 1))) else none

/-- As for `buildBitField`. -/
def buildPiece (pIndex pBegin : Nat) (block : Bytes) : Option Bytes :=
  let blockSize := block.length % 2 ^ 32
  if blockSize + 13 < 2 ^ 32 then
    some (buildMessageHelper (blockSize + 9) 7 (beBytes 4 pIndex ++ beBytes 4 pBegin ++ block.take blockSize))
  else none

def buildPort (port : Nat) : Bytes := buildMessageHelper 3 9 (beBytes 2 port)

/-! ## Complete and unfinished messages -/

variable {msgSize : Nat} {msgId : UInt8} {fields rest bs cs : Bytes}

lemma length_buildMessageHelper (h : msgSize = fields.length + 1) :
    (buildMessageHelper msgSize msgId fields).length = msgSize + 4 := by
  rw [buildMessageHelper, List.length_append, length_beBytes, List.length_cons]
  omega

lemma ofBeBytes_take_four (hlt : msgSize < 2 ^ 32) :
    ofBeBytes ((buildMessageHelper msgSize msgId fields ++ rest).take 4) = msgSize := by
  rw [buildMessageHelper, List.append_assoc, List.take_left' (length_beBytes 4 msgSize), ofBeBytes_beBytes]
  exact Nat.mod_eq_of_lt hlt

/-- A built message at the front of the buffer is complete. -/
lemma IsCompleteMessage_append (h : msgSize = fields.length + 1) (hlt : msgSize + 4 < 2 ^ 32) (rest : Bytes) :
    IsCompleteMessage (buildMessageHelper msgSize msgId fields ++ rest) = msgSize := by
  have hlen : (buildMessageHelper msgSize msgId fields).length = msgSize + 4 := length_buildMessageHelper h
  have hle : (buildMessageHelper msgSize msgId fields ++ rest).length ≥ (msgSize + 4) % 2 ^ 32 := by
    rw [List.length_append, Nat.mod_eq_of_lt hlt]
    omega
  rw [IsCompleteMessage, if_neg (by rw [List.length_append]; omega), ofBeBytes_take_four (by omega), if_pos hle]

/-- A built message that lacks bytes is not complete. -/
lemma IsCompleteMessage_partial (h : msgSize = fields.length + 1) (hlt : msgSize + 4 < 2 ^ 32)
    (hsplit : bs ++ cs = buildMessageHelper msgSize msgId fields) (hne : cs ≠ []) : IsCompleteMessage bs = 0 := by
  have hlen : (buildMessageHelper msgSize msgId fields).length = msgSize + 4 := length_buildMessageHelper h
  have hpos := List.length_pos_iff.2 hne
  rw [← hsplit, List.length_append] at hlen
  rw [IsCompleteMessage]
  by_cases hfour : bs.length < 4
  · rw [if_pos hfour]
  · have htake : bs.take 4 = (buildMessageHelper msgSize msgId fields ++ []).take 4 := by
      rw [List.append_nil, ← hsplit, List.take_append_of_le_length (by omega)]
    rw [if_neg hfour, htake, ofBeBytes_take_four (by omega), if_neg]
    rw [Nat.mod_eq_of_lt hlt]
    omega

lemma parseMessage_build (h : msgId ≤ 9) (beyond : UInt8) :
    parseMessage (buildMessageHelper msgSize msgId fields) beyond = some (MsgType.ofId msgId.toNat, fields) := by
  have hlen : (beBytes 4 msgSize).length = 4 := length_beBytes 4 msgSize
  have hid : (buildMessageHelper msgSize msgId fields).getD 4 beyond = msgId := by
    rw [buildMessageHelper, List.getD_append_right _ _ _ _ (by omega), hlen]
    rfl
  have hdrop : (buildMessageHelper msgSize msgId fields).drop 5 = fields := by
    rw [buildMessageHelper, List.drop_append, hlen, List.drop_of_length_le (by omega)]
    rfl
  have hge : 5 ≤ (buildMessageHelper msgSize msgId fields).length := by
    rw [buildMessageHelper, List.length_append, List.length_cons]
    omega
  rw [parseMessage, if_neg (by omega), hid, if_neg (by simpa using h), if_neg (by omega), hdrop]

end CppExperiments.Torrent
