import CppExperiments.Lib.Search
import CppExperiments.Lib.Text
import Mathlib.Data.List.AList
import Mathlib.Data.List.Induction
import Mathlib.Data.Nat.Digits.Lemmas

/-!
# Short keys

How a counter becomes the key of a shortened address, and that different counters become different keys.
-/

namespace CppExperiments.Url

def base62_chars : Bytes := ascii "0123456789ABCDEFGHIJKLMNOPQRSTUVWXYZabcdefghijklmnopqrstuvwxyz"

/-- At most `n` rounds of the loop that puts the digits in front of the result. -/
def base62Loop : Nat → Nat → Bytes → Bytes
  | 0, _, result => result
  | n + 1, value, result => if 0 < value then base62Loop n (value / 62) (base62_chars.getD
      (value % 62) 0 :: result) else result

def base62Encode (value : Nat) : Bytes := base62Loop value value []

/-- The bytes as one number of 64 bits, the first of them on top. -/
def combine (bytes : Bytes) : Nat := bytes.foldl (fun combined byte => (combined <<< 8) % 2 ^ 64 ||| byte.toNat) 0

def base62EncodeBytes (bytes : Bytes) : Bytes := base62Encode (combine bytes)

/-- The key of a counter, by the 8 bytes that `generateKey` yields. -/
def encryptSizeT (value : Nat) (keyVec : Bytes) : Bytes :=
  base62EncodeBytes (List.zipWith (· ^^^ ·) (leBytes 8 value) keyVec)

variable {value value' n : Nat} {result bytes bytes' keyVec : Bytes}

lemma base62Loop_eq (h : value ≤ n) :
    base62Loop n value result = ((Nat.digits 62 value).map fun d => base62_chars.getD d 0).reverse ++ result := by
  induction n generalizing value result with
  | zero =>
    obtain rfl := Nat.le_zero.1 h
    rfl
  | succ n ih =>
    rw [base62Loop]
    by_cases hpos : 0 < value
    · rw [if_pos hpos, ih (by omega), Nat.digits_def' (by decide) hpos, List.map_cons, List.reverse_cons,
        List.append_assoc]
      rfl
    · obtain rfl := Nat.eq_zero_of_not_pos hpos
      rfl

lemma idxOf_digits (value : Nat) :
    ((Nat.digits 62 value).map fun d => base62_chars.getD d 0).map base62_chars.idxOf = Nat.digits 62 value := by
  have hchars : ∀ d : Fin 62, base62_chars.idxOf (base62_chars.getD d 0) = d := by decide
  rw [List.map_map]
  exact (List.map_congr_left fun d hd => hchars ⟨d, Nat.digits_lt_base (by decide) hd⟩).trans (List.map_id _)

/-- There is no padding, but also no key of two numbers. -/
theorem base62Encode_inj (h : base62Encode value = base62Encode value') : value = value' := by
  rw [base62Encode, base62Encode, base62Loop_eq le_rfl, base62Loop_eq le_rfl, List.append_nil, List.append_nil] at h
  have hdigits := congrArg (List.map base62_chars.idxOf) (List.reverse_injective h)
  rw [idxOf_digits, idxOf_digits] at hdigits
  exact Nat.digits_inj_iff.1 hdigits

lemma combine_concat (bytes : Bytes) (byte : UInt8) :
    combine (bytes ++ [byte]) = (combine bytes <<< 8) % 2 ^ 64 ||| byte.toNat := by
  rw [combine, List.foldl_append]
  rfl

lemma combine_concat_eq (h : combine bytes < 2 ^ 56) (byte : UInt8) :
    combine (bytes ++ [byte]) = combine bytes * 256 + byte.toNat := by
  have hbyte := byte.toNat_lt
  rw [combine_concat, Nat.mod_eq_of_lt (by rw [Nat.shiftLeft_eq]; omega), ← Nat.shiftLeft_add_eq_or_of_lt (by omega),
    Nat.shiftLeft_eq]

lemma combine_lt (h : bytes.length ≤ 8) : combine bytes < 256 ^ bytes.length := by
  induction bytes using List.reverseRecOn with
  | nil => exact Nat.one_pos
  | append_singleton bytes byte ih =>
    rw [List.length_append, List.length_singleton] at h ⊢
    have hlt := ih (by omega)
    have hle : 256 ^ bytes.length ≤ 256 ^ 7 := Nat.pow_le_pow_right (by decide) (by omega)
    have hbyte := byte.toNat_lt
    rw [combine_concat_eq (by omega), Nat.pow_succ]
    omega

lemma combine_inj (h : bytes.length ≤ 8) (hlength : bytes.length = bytes'.length)
    (heq : combine bytes = combine bytes') :
    bytes = bytes' := by
  induction bytes using List.reverseRecOn generalizing bytes' with
  | nil => exact (List.eq_nil_of_length_eq_zero hlength.symm).symm
  | append_singleton bytes byte ih =>
    obtain ⟨bytes', byte', rfl⟩ := (List.eq_nil_or_concat' bytes').resolve_left (by rintro rfl; simp at hlength)
    rw [List.length_append, List.length_singleton] at h hlength
    rw [List.length_append, List.length_singleton] at hlength
    have hle : 256 ^ bytes.length ≤ 256 ^ 7 := Nat.pow_le_pow_right (by decide) (by omega)
    have hlt := combine_lt (by omega : bytes.length ≤ 8)
    have hlt' := combine_lt (by omega : bytes'.length ≤ 8)
    rw [show bytes'.length = bytes.length by omega] at hlt'
    have hbyte := byte.toNat_lt
    have hbyte' := byte'.toNat_lt
    rw [combine_concat_eq (by omega), combine_concat_eq (by omega)] at heq
    rw [ih (by omega) (by omega) (by omega : combine bytes = combine bytes'),
      UInt8.toNat_inj.1 (by omega : byte.toNat = byte'.toNat)]

lemma zipWith_xor_inj (hlength : bytes.length = bytes'.length) (hkey : bytes.length = keyVec.length)
    (h : List.zipWith (· ^^^ ·) bytes keyVec = List.zipWith (· ^^^ ·) bytes' keyVec) : bytes = bytes' := by
  induction bytes generalizing bytes' keyVec with
  | nil => exact (List.eq_nil_of_length_eq_zero hlength.symm).symm
  | cons byte bytes ih =>
    cases bytes' with
    | nil => cases hlength
    | cons byte' bytes' =>
      cases keyVec with
      | nil => cases hkey
      | cons key keyVec =>
        obtain ⟨hbyte, hbytes⟩ := List.cons.inj h
        rw [(UInt8.xor_left_inj key).1 hbyte, ih (Nat.succ.inj hlength) (Nat.succ.inj hkey) hbytes]

/-- Different counters have different keys. -/
theorem encryptSizeT_inj (hkey : keyVec.length = 8) (hvalue : value < 2 ^ 64) (hvalue' : value' < 2 ^ 64)
    (h : encryptSizeT value keyVec = encryptSizeT value' keyVec) : value = value' := by
  have hlength : ∀ v, (List.zipWith (· ^^^ ·) (leBytes 8 v) keyVec).length = 8 := fun v => by
    rw [List.length_zipWith, length_leBytes, hkey, Nat.min_self]
  have hxor := combine_inj (by rw [hlength]) (by rw [hlength, hlength]) (base62Encode_inj h)
  refine leBytes_inj (w := 8) (by omega) (by omega) (zipWith_xor_inj ?_ ?_ hxor)
  · rw [length_leBytes, length_leBytes]
  · rw [length_leBytes, hkey]

end CppExperiments.Url

/-!
## The requests of the URL shortener

The patterns of an address, the check of a posted body, and what a request does to the two maps.
-/

namespace CppExperiments.Url

/-! ## Patterns -/

/-- What the two patterns are made of; `times` is for one character that comes again and again. -/
inductive Regex where
  | start
  | boundary
  | word (bs : Bytes)
  | one (p : UInt8 → Bool)
  | times (p : UInt8 → Bool) (least : Nat) (most : Option Nat)
  | opt (r : Regex)
  | seq (r s : Regex)

namespace Regex

def isLower (b : UInt8) : Bool := decide (97 ≤ b ∧ b ≤ 122)

def isAlnum (b : UInt8) : Bool := isDigit b || isLower b || decide (65 ≤ b ∧ b ≤ 90)

def isWord (b : UInt8) : Bool := isAlnum b || b == 95

/-- The positions at which a match that begins at `i` can end. -/
def ends (text : Bytes) : Regex → Nat → List Nat
  | start, i => if i = 0 then [i] else []
  | boundary, i =>
    let left := decide (0 < i) && (text[i - 1]?).any isWord
    if left = (text[i]?).any isWord then [] else [i]
  | word bs, i => if bs <+: text.drop i then [i + bs.length] else []
  | one p, i => if (text[i]?).any p then [i + 1] else []
  | times p least most, i =>
    let n := ((text.drop i).takeWhile p).length
    ((List.range (n + 1)).filter fun k => decide (least ≤ k) && most.all (decide <| k ≤ ·)).map (i + ·)
  | opt r, i => i :: r.ends text i
  | seq r s, i => (r.ends text i).flatMap (s.ends text)

def regex_match (text : Bytes) (r : Regex) : Bool := (r.ends text 0).contains text.length

def all : List Regex → Regex
  | [] => word []
  | [r] => r
  | r :: rs => seq r (all rs)

end Regex

open Regex

/-- `((http(s)?:\/\/.)?(www\.)?[-a-zA-Z0-9@:%._\+~#=]{2,256}\.[a-z]{2,6}\b([-a-zA-Z0-9@:%_\+.~#?&//=]*))` -/
def URLRegex : Regex := all [
  opt (all [word (ascii "http"), opt (word (ascii "s")), word (ascii "://"), one fun b => b != 10 && b != 13]),
  opt (word (ascii "www.")),
  times (fun b => isAlnum b || (ascii "-@:%._+~#=").contains b) 2 (some 256),
  word (ascii "."),
  times isLower 2 (some 6),
  boundary,
  times (fun b => isAlnum b || (ascii "-@:%_+.~#?&/=").contains b) 0 none]

/-- `^(http(s)?:\/\/)\S+` -/
def ProtocolRegex : Regex := all [
  start, word (ascii "http"), opt (word (ascii "s")), word (ascii "://"), times (fun b => !isSpace b) 1 none]

/-! ## Bodies -/

/-- The variables of the walk over a posted body; no brace is 0. -/
structure PostBody where
  keyCount : Nat := 0
  brace : UInt8 := 0
  key : Bytes := []
  value : Bytes := []

/-- What stands before the closing quote, escapes kept, and what stands behind it; `none` where `at` throws. -/
def quoted (quote : UInt8) : Bytes → Option (Bytes × Bytes)
  | [] => some ([], [])
  | [ch] => if ch = quote then some ([], []) else if ch = 92 then none else some ([ch], [])
  | ch :: next :: rest =>
    if ch = quote then some ([], next :: rest)
    else if ch = 92 then (quoted quote rest).map fun p => (ch :: next :: p.1, p.2)
    else (quoted quote (next :: rest)).map fun p => (ch :: p.1, p.2)

namespace PostBody

/-- The checks behind the walk. -/
def verdict (s : PostBody) : Nat × Bytes :=
  if s.keyCount ≠ 1 then (400, ascii "Only 1 key allowed: 'url'")
  else if s.key ≠ ascii "url" then (400, ascii "Only 1 key allowed: 'url'")
  else if s.value = [] then (400, ascii "Empty URL")
  else if s.brace ≠ 125 then (400, ascii "Invalid JSON")
  else if regex_match s.value URLRegex = false then (400, ascii "Invalid URL")
  else (200, s.value)

/-- At most `n` rounds of the walk over the rest of the body. -/
def walk : Nat → PostBody → Bytes → Option (Nat × Bytes)
  | 0, s, _ | _, s, [] => some s.verdict
  | n + 1, s, ch :: body =>
    if ch = 123 ∨ ch = 125 then
      if (s.brace = 0 ∧ ch = 125) ∨ s.brace = ch then some (400, ascii "Invalid JSON")
      else walk n { s with brace := ch } body
    else if ch = 39 ∨ ch = 34 then do
      let (acc, body) ← quoted ch body
      if acc = [] ∨ s.value ≠ [] then some (400, ascii "Empty String")
      else if s.key = [] then walk n { s with key := acc } body
      else walk n { s with value := acc } body
    else if ch = 58 then walk n { s with keyCount := s.keyCount + 1 } body
    else walk n s body

end PostBody

def validatePostBody (body : Bytes) : Option (Nat × Bytes) := PostBody.walk body.length {} body

/-! ## Requests -/

/-- The files that the program can read. -/
structure Files where
  is_regular_file : Bytes → Bool
  readFile : Bytes → Bytes

/-- A handler, with the counter that all handlers share. -/
structure RequestHandler where
  serverIP : Bytes
  serverPort : Int
  cache : AList fun _ : Bytes => Bytes
  revCache : AList fun _ : Bytes => Bytes
  Counter : Nat

structure Response where
  code : Nat
  headers : Bytes
  body : Bytes

namespace Response

def text (r : Response) : Bytes :=
  let body := r.body ++ crlf
  ascii "HTTP/1.1 " ++ decimal r.code ++ crlf ++ r.headers ++ crlf ++ ascii "Content-Length: " ++ decimal body.length ++
    crlf ++ crlf ++ body

/-- The answer with the headers that most answers have. -/
def json (code : Nat) (body : Bytes) : Response := ⟨code, ascii "Content-Type: application/json", body⟩

end Response

def extractRequestURL (buffer requestTypeStr : Bytes) : Bytes :=
  let rest := buffer.drop (requestTypeStr.length + 2)
  match find [32] rest with
  | none => []
  | some URLLength => rest.take URLLength

/-- The address behind an accepted body. -/
def longURL (value : Bytes) : Bytes := if regex_match value ProtocolRegex = true then value else ascii "http://" ++ value

namespace RequestHandler

/-- A handler with empty maps. -/
def start (serverIP : Bytes) (serverPort : Int) (Counter : Nat) : RequestHandler where
  serverIP := serverIP
  serverPort := serverPort
  cache := ∅
  revCache := ∅
  Counter := Counter

def shortenURL (keyVec : Bytes) (r : RequestHandler) (longURL : Bytes) : RequestHandler × Bytes :=
  let r :=
    if r.cache.lookup longURL = none then
      let shortURL := encryptSizeT r.Counter keyVec
      { r with
        Counter := (r.Counter + 1) % 2 ^ 64
        revCache := r.revCache.insert shortURL longURL
        cache := r.cache.insert longURL shortURL }
    else r
  (r, (r.cache.lookup longURL).getD [])

/-- The body of the answer to an accepted post. -/
def shortened (r : RequestHandler) (shortURL value : Bytes) : Bytes :=
  ascii "\x7b\"key\": \"" ++ shortURL ++ ascii "\", \"long_url\": \"" ++ value ++ ascii "\", \"short_url\": \"" ++ r.serverIP ++
    ascii ":" ++ decimalInt r.serverPort ++ ascii "/" ++ shortURL ++ ascii "\"\x7d"

def handleGet (files : Files) (r : RequestHandler) (buffer : Bytes) : Response :=
  let shortURL := extractRequestURL buffer (ascii "GET")
  if shortURL = [] then ⟨200, ascii "Content-Type: text/html", files.readFile (ascii "static/index.html")⟩
  else if shortURL = ascii "ping" then .json 200 (ascii "\x7b\"count\": " ++ decimal r.cache.entries.length ++ ascii "\x7d")
  else if ascii "static/" <+: shortURL then
    if ¬(find (ascii "..") shortURL = none ∧ files.is_regular_file shortURL = true) then
      .json 404 (ascii "\"Not a valid file path.\"")
    else
      let headers :=
        if ascii ".css" <:+ shortURL then ascii "Content-Type: text/css"
        else if ascii ".js" <:+ shortURL then ascii "Content-Type: text/javascript"
        else ascii "Content-Type: text/html"
      ⟨200, headers, files.readFile shortURL⟩
  else
    match r.revCache.lookup shortURL with
    | some url => ⟨302, ascii "Content-Type: application/json" ++ crlf ++ ascii "location: " ++ url, []⟩
    | none => .json 404 (ascii "\"URL not found\"")

/-- `none` where the check of the body throws. -/
def handlePost (keyVec : Bytes) (r : RequestHandler) (postBody : Bytes) : Option (RequestHandler × Response) := do
  let (responseCode, value) ← validatePostBody postBody
  if responseCode = 200 then
    let responseCode := if r.cache.lookup (longURL value) = none then 201 else 200
    let (r', shortURL) := r.shortenURL keyVec (longURL value)
    some (r', .json responseCode (r'.shortened shortURL value))
  else some (r, .json responseCode (ascii "\"" ++ value ++ ascii "\""))

def handleDelete (r : RequestHandler) (buffer : Bytes) : RequestHandler × Response :=
  let shortURL := extractRequestURL buffer (ascii "DELETE")
  if shortURL = [] then (r, .json 400 (ascii "\"Invalid request\""))
  else
    match r.revCache.lookup shortURL with
    | some url => ({ r with cache := r.cache.erase url, revCache := r.revCache.erase shortURL }, .json 200 [])
    | none => (r, .json 404 (ascii "\"URL Not found\""))

/-- What a request does, and its answer; `none` where an exception is thrown. -/
def processRequest (files : Files) (keyVec : Bytes) (r : RequestHandler) (buffer : Bytes) :
    Option (RequestHandler × Bytes) :=
  match find (crlf ++ crlf) buffer with
  | none => some (r, (Response.json 400 (ascii "\"Invalid HTTP format.\"")).text)
  | some pos =>
    if ascii "GET" <+: buffer then some (r, (r.handleGet files buffer).text)
    else if ascii "POST" <+: buffer then (r.handlePost keyVec (buffer.drop (pos + 4))).map fun p => (p.1, p.2.text)
    else if ascii "DELETE" <+: buffer then some ((r.handleDelete buffer).1, (r.handleDelete buffer).2.text)
    else some (r, (Response.json 405 (ascii "\"Request method unknown or is not supported\"")).text)

end RequestHandler

example : regex_match (ascii "https://www.example.com/a?b=c") URLRegex = true := by decide +kernel

example : validatePostBody (ascii "\x7b\"url\": \"example.com\"\x7d") = some (200, ascii "example.com") := by decide +kernel

end CppExperiments.Url
