import CppExperiments.Lib.Pieces
import CppExperiments.Net.Completeness

/-!
# Streams of chunks

The loop that hands a chunked response to a callback, chunk by chunk: at most one chunk is taken for every read, and
only when what was read so far ends like a line.
-/

namespace CppExperiments.Net

/-! ## The code -/

/-- `std::stoi`; `none` where it throws. -/
def stoi (bs : Bytes) : Option Int := (integerPrefix bs).filter fun z => decide (-2 ^ 31 ≤ z ∧ z < 2 ^ 31)

/-- The first line, the headers and the body; `none` where it throws. -/
def parseHttpString (raw : Bytes) : Option (Bytes × Headers × Bytes) := do
  let pos1 ← find crlf raw
  let firstLine := trimStr (raw.take pos1)
  let pos2 ← findFrom crlfcrlf raw pos1
  let headers ← parseHeadersFromString ((raw.drop (pos1 + 2)).take (pos2 - pos1))
  some (firstLine, headers, raw.drop (pos2 + 4))

structure HttpResponse where
  raw : Bytes := []
  body : Bytes := []
  statusCode : Int := 200
  headers : Headers := []

namespace HttpResponse

/-- The second of the words that blanks separate; `none` where there is none. -/
def statusWord (statusLine : Bytes) : Option Bytes := do
  let pos1 ← find [32] statusLine
  let rest := (statusLine.drop (pos1 + 1)).dropWhile (· == 32)
  if rest = [] then none else some (rest.takeWhile (· != 32))

def fromString (raw : Bytes) : Option HttpResponse := do
  let (statusLine, headers, body) ← parseHttpString raw
  let word ← statusWord statusLine
  let statusCode ← stoi word
  some ⟨raw, body, statusCode, headers⟩

/-- The first value of a header. -/
def header (r : HttpResponse) (key : Bytes) : Bytes := ((r.headers.values (lower key)).bind List.head?).getD []

end HttpResponse

/-- The first chunk, if it is there, and what is left of the buffer; `none` where it throws. -/
def unchunkBody (buffer : Bytes) : Option (Option (Bytes × Bytes)) :=
  match find crlf buffer with
  | none => some none
  | some pos =>
    if ¬ crlf <:+ buffer then some none
    else
      match stoulHex (buffer.take pos) with
      | none => none
      | some chunkSize =>
        if buffer.length < (pos + 2 + chunkSize + 2) % 2 ^ 64 then some none
        else some (some ((buffer.drop (pos + 2)).take chunkSize, buffer.drop ((pos + 2 + chunkSize + 2) % 2 ^ 64)))

/-- `State`, but for its end. -/
inductive State where
  | START
  | CHUNKED
  deriving DecidableEq

structure Stream where
  rawResp : Bytes := []
  httpResp : HttpResponse := {}
  state : State := .START

/-- What a round does: it goes on with or without a response for the callback, it is the last one, or it fails: an
exception, or an absent chunk that is read. -/
inductive Round where
  | next (s : Stream)
  | call (s : Stream)
  | last (s : Stream)
  | done
  | failed

namespace Stream

/-- One round of the loop, up to the callback. -/
def round (s : Stream) (received : Bytes) : Round :=
  let rawResp := s.rawResp ++ received
  match s.state with
  | .START =>
    match isCompleteHttpRequest rawResp false with
    | none => .failed
    | some false => .next { s with rawResp := rawResp }
    | some true =>
      match HttpResponse.fromString rawResp with
      | none => .failed
      | some httpResp =>
        if httpResp.header (ascii "transfer-encoding") ≠ ascii "chunked" then .last ⟨rawResp, httpResp, .START⟩
        else
          match unchunkBody httpResp.body with
          | none | some none => .failed
          | some (some (chunk, rawResp)) =>
            if chunk = [] then .done
            else .call ⟨rawResp, { httpResp with headers := httpResp.headers.erase (ascii "transfer-encoding"), body := chunk }, .CHUNKED⟩
  | .CHUNKED =>
    match unchunkBody rawResp with
    | none => .failed
    | some none => .next { s with rawResp := rawResp }
    | some (some (chunk, rawResp)) =>
      if chunk = [] then .done else .call ⟨rawResp, { s.httpResp with body := chunk }, .CHUNKED⟩

/-- The rest of the loop, and the responses that the callback gets in it; `none` where it is not left but by a failure.
A read beyond these fails: the socket is closed. -/
def loop (callback : HttpResponse → Bool) (s : Stream) : List Bytes → Option (List HttpResponse)
  | [] => none
  | received :: reads =>
    match s.round received with
    | .failed => none
    | .done => some []
    | .last s => some [s.httpResp]
    | .next s => loop callback s reads
    | .call s => if callback s.httpResp = true then (loop callback s reads).map (s.httpResp :: ·) else some [s.httpResp]

end Stream

/-- The responses of which the callback is told; with the last read the connection is found closed. -/
def stream (callback : HttpResponse → Bool) (reads : List Bytes) : Option (List HttpResponse) :=
  Stream.loop callback {} (reads ++ [[]])

end CppExperiments.Net
