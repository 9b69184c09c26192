import CppExperiments.Lib.Search
import CppExperiments.Redis.Cache

/-!
# Requests on the wire

A request arrives in pieces, as the network cuts it. `readRequest` decides after every piece whether the
request is complete, by counting line ends and dollar signs; `deserialize` then reads it by its lengths.
-/

namespace CppExperiments.Redis

/-- How `deserialize` ends without a node: one is thrown, or a fault occurs. -/
inductive Abort where
  | thrown (node : RedisNode)
  | fault (f : Fault)
  deriving DecidableEq

/-- `std::from_chars` for a `size_t`; `none` where it reports an error. -/
def fromCharsSize (bs : Bytes) : Option Nat := (digitPrefix bs).filter (fun n => n < 2 ^ 64)

def substr (bs : Bytes) (pos count : Nat) : Bytes := (bs.drop pos).take count

/-- `find("\r\n", pos)`. -/
def findSep (bs : Bytes) (pos : Nat) : Option Nat := (find SEP (bs.drop pos)).map (fun i => pos + i)

def errNode : RedisNode := .plain (ascii "Invalid input") false

/-- Reading the terminating NUL at `size()` is fine, reading behind it is not. -/
def deserializeBulkStr (serialized : Bytes) (currPos : Nat) : Except Abort (VariantRedisNode × Nat) :=
  if serialized.length < currPos then .error (.fault .outOfRange)
  else if serialized.getD currPos 0 ≠ 36 then .error (.thrown errNode)
  else
    match findSep serialized currPos with
    | none => .error (.thrown errNode)
    | some lenTokEnd =>
      if serialized.getD (currPos + 1) 0 = 45 then .ok (.nil, serialized.length)
      else
        match fromCharsSize (substr serialized (currPos + 1) (lenTokEnd - (currPos + 1))) with
        | none => .error (.thrown errNode)
        | some strLength =>
          let serializedSubstr := substr serialized currPos ((strLength + (lenTokEnd - currPos) + 4) % 2 ^ 64)
          let token := substr serialized (lenTokEnd + 2) strLength
          .ok (⟨.str token, serializedSubstr⟩, (lenTokEnd + 2 + strLength + 2) % 2 ^ 64)

/-- The loop over the elements of an array. -/
def deserializeElements (serialized : Bytes) : Nat → Nat → Except Abort (List VariantRedisNode × Nat)
  | 0, currPos => .ok ([], currPos)
  | count + 1, currPos => do
    let (node, currPos) ← deserializeBulkStr serialized currPos
    let (nodes, currPos) ← deserializeElements serialized count currPos
    return (node :: nodes, currPos)

def deserialize (serialized : Bytes) : Except Abort RedisNode :=
  let ch := serialized.getD 0 0
  if ch = 43 ∨ ch = 45 ∨ ch = 58 then
    match findSep serialized 0 with
    | none => .ok errNode
    | some tokEnd =>
      let token := substr serialized 1 (tokEnd - 1)
      if ch = 43 then .ok (.plain token true)
      else if ch = 45 then .ok (.plain token false)
      else if allDigitsSigned token then
        match stol token with
        | none => .error (.fault .outOfRange)
        | some z => .ok (.variant (.ofLong z))
      else .ok errNode
  else if ch = 36 then do
    let (node, currPos) ← deserializeBulkStr serialized 0
    return if currPos = serialized.length then .variant node else errNode
  else if ch = 42 then
    match findSep serialized 0 with
    | none => .ok errNode
    | some lenTokEnd =>
      if serialized.getD 1 0 = 45 then .ok (.variant .nil)
      else
        match fromCharsSize (substr serialized 1 (lenTokEnd - 1)) with
        | none => .ok errNode
        | some arrLength => do
          let (nodes, currPos) ← deserializeElements serialized arrLength (lenTokEnd + 2)
          return if currPos = serialized.length then .aggregate nodes else errNode
  else .ok errNode

def recvError : Bytes := ascii "-Error receiving data" ++ SEP

def invalidInp : Bytes := ascii "-Invalid input data" ++ SEP

/-- The request after one `recv`, and whether it is complete. No bytes received stands for an error
or a closed connection. -/
def readRequest (request recvd : Bytes) : Bool × Bytes :=
  if recvd = [] then (true, recvError)
  else
    let request := request ++ recvd
    let ch := request.getD 0 0
    if ch = 43 ∨ ch = 45 ∨ ch = 58 then ((find SEP request).isSome, request)
    else if ch = 36 then
      match find SEP request with
      | none => (false, request)
      | some lenTokEnd =>
        if request.getD 1 0 = 45 then
          if request.length < 5 then (false, request)
          else if request = ascii "$-1" ++ SEP then (true, request)
          else (true, invalidInp)
        else
          match fromCharsSize (substr request 1 (lenTokEnd - 1)) with
          | none => (true, invalidInp)
          | some strLength => (decide ((lenTokEnd + 2 + strLength + 2) % 2 ^ 64 < request.length), request)
    else if ch = 42 then
      match find SEP request with
      | none => (false, request)
      | some lenTokEnd =>
        if request.getD 1 0 = 45 then
          if request.length < 5 then (false, request)
          else if request = ascii "*-1" ++ SEP then (true, request)
          else (true, invalidInp)
        else
          match fromCharsSize (substr request 1 (lenTokEnd - 1)) with
          | none => (true, invalidInp)
          | some arrLength =>
            let totalDelims := countSubstring request SEP
            let totalStrs := countSubstring request (ascii "$")
            let expectedDelims := (2 * arrLength + 1) % 2 ^ 64
            if expectedDelims < totalDelims ∨ arrLength < totalStrs then (true, invalidInp)
            else if totalDelims < expectedDelims ∨ totalStrs < arrLength then (false, request)
            else (true, request)
    else (true, invalidInp)

/-- The node with its text kept, as `serialize` leaves it. -/
def VariantRedisNode.settled (n : VariantRedisNode) : VariantRedisNode := { n with serialized := n.serialize }

def bulkText (lenText token ending : Bytes) : Bytes := 36 :: (lenText ++ SEP ++ (token ++ ending))

/-- A length that is read as `n`, and the two bytes that end the text behind it. -/
structure Framing (lenText ending : Bytes) (n : Nat) : Prop where
  one_line : (13 : UInt8) ∉ lenText
  unsigned : lenText.head? ≠ some 45
  length_eq : fromCharsSize lenText = some n
  length_ending : ending.length = 2

/-- A bulk string on the wire. -/
def BulkText (text token : Bytes) : Prop :=
  ∃ lenText ending, Framing lenText ending token.length ∧ text = bulkText lenText token ending

/-- A string whose text, where it is kept, is one of its bulk strings. -/
def Textual (n : VariantRedisNode) : Prop := ∃ token, n.value = .str token ∧ BulkText n.serialize token

section Reading

variable {text token lenText ending pre post : Bytes} {n i : Nat}

lemma fromCharsSize_decimal (h : n < 2 ^ 64) : fromCharsSize (decimal n) = some n := by
  rw [fromCharsSize, digitPrefix_decimal, Option.filter_some, if_pos (by simpa using h)]

lemma head_decimal (n : Nat) : (decimal n).head? ≠ some 45 := by
  intro h
  exact not_mem_decimal (by decide) n (List.mem_of_mem_head? h)

lemma framing_decimal (h : n < 2 ^ 64) : Framing (decimal n) SEP n where
  one_line := not_mem_decimal (by decide) _
  unsigned := head_decimal _
  length_eq := fromCharsSize_decimal h
  length_ending := rfl

lemma serialize_ofStr (token : Bytes) :
    (VariantRedisNode.ofStr token).serialize = bulkText (decimal token.length) token SEP := by
  simp [VariantRedisNode.serialize, VariantRedisNode.ofStr, bulkText, ascii]

/-- What the server writes for a string is a bulk string. -/
theorem bulkText_ofStr (h : token.length < 2 ^ 64) : BulkText (VariantRedisNode.ofStr token).serialize token :=
  ⟨decimal token.length, SEP, framing_decimal h, serialize_ofStr token⟩

lemma substr_append (pre mid post : Bytes) : substr (pre ++ mid ++ post) pre.length mid.length = mid := by
  rw [substr, List.append_assoc, List.drop_left, List.take_left]

@[simp] lemma length_SEP : SEP.length = 2 := rfl

lemma length_bulkText (h : ending.length = 2) :
    (bulkText lenText token ending).length = lenText.length + token.length + 5 := by
  rw [bulkText, List.length_cons, List.length_append, List.length_append, List.length_append, h, length_SEP]
  omega

lemma getD_append (pre mid : Bytes) (i : Nat) : (pre ++ mid).getD (pre.length + i) 0 = mid.getD i 0 := by
  rw [List.getD_append_right _ _ _ _ (Nat.le_add_right _ _), Nat.add_sub_cancel_left]

lemma findSep_append (h : (13 : UInt8) ∉ lenText) (pre post : Bytes) :
    findSep (pre ++ (lenText ++ SEP ++ post)) pre.length = some (pre.length + lenText.length) := by
  rw [findSep, List.drop_left, SEP, crlf, find_append h, Option.map_some]

/-- A bulk string is read where it stands. -/
theorem deserializeBulkStr_eq (pre post : Bytes) (hb : BulkText text token)
    (hlen : (pre ++ text ++ post).length < 2 ^ 64) :
    deserializeBulkStr (pre ++ text ++ post) pre.length = .ok (⟨.str token, text⟩, (pre ++ text).length) := by
  obtain ⟨lenText, ending, hf, rfl⟩ := hb
  have htext : (bulkText lenText token ending).length = _ := length_bulkText hf.length_ending
  have hlen' := hlen
  rw [List.length_append, List.length_append] at hlen'
  have hfind : findSep (pre ++ bulkText lenText token ending ++ post) pre.length
      = some (pre.length + (lenText.length + 1)) := by
    have hnot : (13 : UInt8) ∉ 36 :: lenText := by
      rw [List.mem_cons]
      exact not_or.2 ⟨by decide, hf.one_line⟩
    have h := findSep_append hnot pre (token ++ ending ++ post)
    simpa [bulkText] using h
  have hdollar : (pre ++ bulkText lenText token ending ++ post).getD pre.length 0 = 36 := by
    rw [List.append_assoc]
    exact getD_append pre _ 0
  have hsign : (pre ++ bulkText lenText token ending ++ post).getD (pre.length + 1) 0 ≠ 45 := by
    rw [List.append_assoc, getD_append]
    cases hl : lenText with
    | nil => simp [bulkText, SEP, crlf]
    | cons d rest =>
      have hd := hf.unsigned
      rw [hl] at hd
      simpa [bulkText] using hd
  have hlenText : substr (pre ++ bulkText lenText token ending ++ post) (pre.length + 1)
      (pre.length + (lenText.length + 1) - (pre.length + 1)) = lenText := by
    have h := substr_append (pre ++ [36]) lenText (SEP ++ (token ++ ending) ++ post)
    have hsub : pre.length + (lenText.length + 1) - (pre.length + 1) = lenText.length := by omega
    rw [hsub]
    simpa [bulkText] using h
  have htoken : substr (pre ++ bulkText lenText token ending ++ post) (pre.length + (lenText.length + 1) + 2)
      token.length = token := by
    have h := substr_append (pre ++ 36 :: (lenText ++ SEP)) token (ending ++ post)
    have hadd : (pre ++ 36 :: (lenText ++ SEP)).length = pre.length + (lenText.length + 1) + 2 := by
      simp
      omega
    rw [hadd] at h
    simpa [bulkText] using h
  have hwhole : substr (pre ++ bulkText lenText token ending ++ post) pre.length
      ((token.length + (pre.length + (lenText.length + 1) - pre.length) + 4) % 2 ^ 64)
      = bulkText lenText token ending := by
    have hmod : (token.length + (pre.length + (lenText.length + 1) - pre.length) + 4) % 2 ^ 64
        = (bulkText lenText token ending).length := by
      rw [Nat.mod_eq_of_lt (by omega)]
      omega
    rw [hmod, substr_append]
  have hnext : (pre.length + (lenText.length + 1) + 2 + token.length + 2) % 2 ^ 64
      = (pre ++ bulkText lenText token ending).length := by
    rw [Nat.mod_eq_of_lt (by omega), List.length_append]
    omega
  have hin : ¬ (pre ++ bulkText lenText token ending ++ post).length < pre.length := by
    rw [List.length_append, List.length_append]
    omega
  rw [deserializeBulkStr, if_neg hin, if_neg (not_not.2 hdollar), hfind]
  simp only
  rw [if_neg hsign, hlenText, hf.length_eq]
  simp only
  rw [htoken, hwhole, hnext]

lemma textual_ofStr (h : token.length < 2 ^ 64) : Textual (.ofStr token) := ⟨token, rfl, bulkText_ofStr h⟩

/-- The strings of an array are read one behind the other. -/
theorem deserializeElements_eq {nodes : List VariantRedisNode} (pre : Bytes) (ht : ∀ n ∈ nodes, Textual n)
    (hlen : (pre ++ nodes.flatMap VariantRedisNode.serialize).length < 2 ^ 64) :
    deserializeElements (pre ++ nodes.flatMap VariantRedisNode.serialize) nodes.length pre.length
      = .ok (nodes.map VariantRedisNode.settled, (pre ++ nodes.flatMap VariantRedisNode.serialize).length) := by
  induction nodes generalizing pre with
  | nil => simp [deserializeElements]
  | cons n nodes ih =>
    obtain ⟨token, hvalue, hb⟩ := ht n List.mem_cons_self
    have happ : pre ++ (n :: nodes).flatMap VariantRedisNode.serialize
        = pre ++ n.serialize ++ nodes.flatMap VariantRedisNode.serialize := by
      rw [List.flatMap_cons, List.append_assoc]
    rw [happ] at hlen ⊢
    have hrest := ih (pre ++ n.serialize) (fun n' hn' => ht n' (List.mem_cons_of_mem n hn')) hlen
    have hnode : (⟨.str token, n.serialize⟩ : VariantRedisNode) = n.settled := by
      rw [VariantRedisNode.settled, hvalue]
    rw [List.length_cons, deserializeElements, deserializeBulkStr_eq pre _ hb hlen, hnode]
    change (deserializeElements _ _ _ >>= _) = _
    rw [hrest]
    rfl

lemma findSep_header (b : UInt8) (hb : b ≠ 13) (n : Nat) (post : Bytes) :
    findSep (b :: (decimal n ++ SEP ++ post)) 0 = some (1 + (decimal n).length) := by
  have hnot : (13 : UInt8) ∉ b :: decimal n := by
    rw [List.mem_cons]
    exact not_or.2 ⟨Ne.symm hb, not_mem_decimal (by decide) n⟩
  have h := findSep_append hnot [] post
  simpa [Nat.add_comm] using h

lemma substr_header (b : UInt8) (n : Nat) (post : Bytes) :
    substr (b :: (decimal n ++ SEP ++ post)) 1 (1 + (decimal n).length - 1) = decimal n := by
  have h := substr_append [b] (decimal n) (SEP ++ post)
  rw [Nat.add_sub_cancel_left]
  simpa using h

lemma header_sign (b : UInt8) (n : Nat) (post : Bytes) : (b :: (decimal n ++ SEP ++ post)).getD 1 0 ≠ 45 := by
  cases hd : decimal n with
  | nil => exact absurd hd (decimal_ne_nil n)
  | cons d rest =>
    have h := head_decimal n
    rw [hd] at h
    simpa using h

lemma serialize_aggregate (nodes : List VariantRedisNode) :
    (RedisNode.aggregate nodes).serialize
      = 42 :: (decimal nodes.length ++ SEP ++ nodes.flatMap VariantRedisNode.serialize) := by
  simp [RedisNode.serialize, ascii]

/-- What is written for a list of strings is read as that list. -/
theorem deserialize_aggregate {nodes : List VariantRedisNode} (ht : ∀ n ∈ nodes, Textual n)
    (hcount : nodes.length < 2 ^ 64) (hlen : (RedisNode.aggregate nodes).serialize.length < 2 ^ 64) :
    deserialize (RedisNode.aggregate nodes).serialize = .ok (.aggregate (nodes.map VariantRedisNode.settled)) := by
  rw [serialize_aggregate] at hlen ⊢
  have hpre : (42 :: (decimal nodes.length ++ SEP) : Bytes).length = 1 + (decimal nodes.length).length + 2 := by
    rw [List.length_cons, List.length_append, length_SEP]
    omega
  have helems := deserializeElements_eq (42 :: (decimal nodes.length ++ SEP)) ht hlen
  rw [hpre] at helems
  rw [deserialize, List.getD_cons_zero, if_neg (by decide), if_neg (by decide), if_pos rfl,
    findSep_header 42 (by decide)]
  simp only
  rw [if_neg (header_sign 42 _ _), substr_header, fromCharsSize_decimal hcount]
  simp only
  rw [← List.cons_append, helems]
  exact congrArg Except.ok (if_pos rfl)

/-- What is written for a string is read as that string. -/
theorem deserialize_variant {n : VariantRedisNode} (ht : Textual n) (hlen : n.serialize.length < 2 ^ 64) :
    deserialize n.serialize = .ok (.variant n.settled) := by
  obtain ⟨token, hvalue, hb⟩ := ht
  have hbulk := deserializeBulkStr_eq [] [] hb (by simpa using hlen)
  have hhead : n.serialize.getD 0 0 = 36 := by
    obtain ⟨lenText, ending, _, heq⟩ := hb
    rw [heq]
    rfl
  have hnode : (⟨.str token, n.serialize⟩ : VariantRedisNode) = n.settled := by
    rw [VariantRedisNode.settled, hvalue]
  rw [List.nil_append, List.append_nil, hnode] at hbulk
  rw [deserialize, hhead, if_neg (by decide), if_pos rfl, show deserializeBulkStr n.serialize 0 = _ from hbulk]
  exact congrArg Except.ok (if_pos rfl)

end Reading

end CppExperiments.Redis
