import CppExperiments.Csv.Lines
import CppExperiments.Lib.FileSystem

/-!
# The file server

A request line that is read from a buffer of 512 bytes as a C string, the file that it names below the served
directory, and the response that is put together of the lines of that file.
-/

namespace CppExperiments.Net.HttpServer

open FileSystem (Disk Place)

/-! ## The code -/

/-- The bytes of a regular file, and whether it can be opened. -/
structure Document where
  contents : Bytes
  readable : Bool
  deriving DecidableEq

/-- The directory that is served, which was there at the start. -/
structure Site where
  disk : Disk Document
  serveDirectory : Bytes
  base : Place
  found : disk.lookup serveDirectory = .at base

/-- One `recv` of at most 512 bytes, when `n` bytes of what was sent have arrived. -/
def recv (sent : Bytes) (n : Nat) : Bytes := (sent.take n).take 512

/-- The C string in the buffer; `none` where it is read beyond its end. -/
def cBuffer (received : Bytes) : Option Bytes :=
  let rawBuffer := received ++ List.replicate (512 - received.length) 0
  if 0 ∈ rawBuffer then some (Path.cString rawBuffer) else none

def reqType (buffer : Bytes) : Bytes := buffer.takeWhile (· != 32)

/-- Two behind the first blank; `npos + 2` wraps around. -/
def pathStart (buffer : Bytes) : Nat :=
  match buffer.idxOf? 32 with
  | none => 1
  | some reqTypeEndPos => reqTypeEndPos + 2

def reqPathRaw (buffer : Bytes) : Bytes :=
  if buffer.length < pathStart buffer ∨ buffer[pathStart buffer]? = some 32 then []
  else (buffer.drop (pathStart buffer)).takeWhile (· != 32)

/-- `lexically_relative` of two canonical paths. -/
def lexicallyRelative : Place → Place → List Bytes
  | [], [] => [Path.dot]
  | p, [] => p
  | [], base => base.map fun _ => Path.dotDot
  | c :: p, b :: base => if c = b then lexicallyRelative p base else (b :: base).map (fun _ => Path.dotDot) ++ c :: p

/-- The loop over the lines of a file. -/
def copyLines (fileContents : Bytes) (is : Bytes) : Bytes :=
  match h : Csv.getline is with
  | none => fileContents
  | some (ipBuffer, rest) => copyLines (fileContents ++ ipBuffer ++ [10]) rest
  termination_by is.length
  decreasing_by
    rw [Csv.getline] at h
    split at h
    · cases h
    · rename_i hne
      obtain ⟨-, rfl⟩ := Prod.mk.inj (Option.some.inj h)
      have hlength := (List.dropWhile_suffix (· != 10) (l := is)).length_le
      have hpos := List.length_pos_of_ne_nil hne
      rw [List.length_tail]
      omega

def header (responseCode : Bytes) (length : Nat) : Bytes :=
  ascii "HTTP/1.1 " ++ responseCode ++ ascii "\r\nContent-Type: text/plain\r\n" ++
    (ascii "Content-Length: " ++ decimal length ++ ascii "\r\n\r\n")

/-- A response, and the place of what was opened for it. -/
structure Reply where
  responseCode : Bytes
  opened : Option Place
  response : Bytes

namespace Site

variable (site : Site)

def reqPath (buffer : Bytes) : Bytes := Path.append site.serveDirectory ((reqPathRaw buffer).takeWhile (· != 63))

def validPath (place : Place) : Bool :=
  let relativePath := Path.joined (lexicallyRelative place site.base)
  relativePath.length == 1 || relativePath.take 2 != Path.dotDot

/-- What can be read at a place; a directory is opened, but not read. -/
def readFile (place : Place) : Bytes :=
  match site.disk.files place with
  | some (.file document) => if document.readable = true then copyLines [] document.contents else []
  | _ => []

def respond (responseCode : Bytes) (opened : Option Place) : Reply :=
  let fileContents := opened.elim [] site.readFile
  ⟨responseCode, opened, header responseCode fileContents.length ++ fileContents⟩

/-- `none` where an exception leaves the thread. -/
def answer (buffer : Bytes) : Option Reply :=
  match site.disk.exists? (site.reqPath buffer) with
  | none => none
  | some _ =>
    if reqType buffer = ascii "GET" then
      match site.disk.lookup (site.reqPath buffer) with
      | .at place =>
        if site.validPath place = true then some (site.respond (ascii "200 OK") (some place))
        else some (site.respond (ascii "404 Not Found") none)
      | _ => some (site.respond (ascii "404 Not Found") none)
    else some (site.respond (ascii "405 Method Not Allowed") none)

/-- `none` where the buffer is read beyond its end. -/
def handleClient (received : Bytes) : Option (Option Reply) := (cBuffer received).map site.answer

/-! ## What a client gets -/

/-- The buffer is not read beyond its end, nothing outside the directory is opened, and a file is sent as it is. -/
def Correct (received : Bytes) : Prop :=
  ∃ outcome, site.handleClient received = some outcome ∧ ∀ reply, outcome = some reply → ∀ place,
    reply.opened = some place →
    site.base <+: place ∧ ∀ document, site.disk.files place = some (.file document) →
      reply.response = header (ascii "200 OK") document.contents.length ++ document.contents

/-- The read leaves a zero byte in the buffer, and a request for a file in the directory, by a name that does not begin
with two dots, is for one that can be read as it is: it is empty, or its last line has an end. -/
def Served (received : Bytes) : Prop :=
  (received.length < 512 ∨ 0 ∈ received) ∧ (reqType (Path.cString received) = ascii "GET" → ∀ place document,
    site.disk.lookup (site.reqPath (Path.cString received)) = .at place → site.disk.files place =
      some (.file document) →
      ∀ below, place = site.base ++ below → ¬ Path.dotDot <+: Path.joined below →
        document.contents = [] ∨ document.readable = true ∧ document.contents.getLast? = some 10)

end Site

/-! ## The buffer -/

variable {received fileContents is : Bytes}

lemma cBuffer_eq (h : received.length < 512 ∨ 0 ∈ received) : cBuffer received = some (Path.cString received) := by
  have hmem : 0 ∈ received ++ List.replicate (512 - received.length) 0 := by
    rcases h with h | h
    · exact List.mem_append_right _ (List.mem_replicate.2 ⟨by omega, rfl⟩)
    · exact List.mem_append_left _ h
  rw [cBuffer, if_pos hmem]
  by_cases hzero : 0 ∈ received
  · rw [Path.cString_append_of_mem hzero]
  · have hnil : Path.cString (List.replicate (512 - received.length) 0) = [] := by
      cases 512 - received.length <;> rfl
    rw [Path.cString_append_of_notMem hzero, hnil, List.append_nil, Path.cString_of_notMem hzero]

lemma cBuffer_eq_none (h : ¬ (received.length < 512 ∨ 0 ∈ received)) : cBuffer received = none := by
  rw [not_or] at h
  have hnil : 512 - received.length = 0 := by omega
  rw [cBuffer, hnil, List.replicate_zero, List.append_nil, if_neg h.2]

/-! ## Lines -/

/-- Every line gets an end, also the last one. -/
lemma copyLines_eq (fileContents is : Bytes) :
    copyLines fileContents is = fileContents ++ is ++ if is = [] ∨ is.getLast? = some 10 then [] else [10] := by
  induction fileContents, is using copyLines.induct with
  | case1 fileContents is hgetline =>
    rw [Csv.getline] at hgetline
    split at hgetline
    · rename_i hnil
      subst hnil
      rw [copyLines, if_pos (Or.inl rfl), List.append_nil, List.append_nil]
      rfl
    · cases hgetline
  | case2 fileContents is ipBuffer rest hgetline ih =>
    have hcopy : copyLines fileContents is = copyLines (fileContents ++ ipBuffer ++ [10]) rest := by
      rw [copyLines]
      split
      · rename_i hnone
        rw [hgetline] at hnone
        cases hnone
      · rename_i line rest' hsome
        obtain ⟨rfl, rfl⟩ := Prod.mk.inj (Option.some.inj (hgetline.symm.trans hsome))
        rfl
    rw [Csv.getline] at hgetline
    split at hgetline
    · cases hgetline
    · rename_i hne
      obtain ⟨hline, hrest⟩ := Prod.mk.inj (Option.some.inj hgetline)
      have hsplit := @List.takeWhile_append_dropWhile _ (· != (10 : UInt8)) is
      rw [hcopy, ih]
      cases hdrop : is.dropWhile (· != 10) with
      | nil =>
        rw [hdrop, hline, List.append_nil] at hsplit
        rw [hdrop] at hrest
        have hlast : is.getLast? ≠ some 10 := by
          intro hlast
          have hmem := List.mem_of_getLast? hlast
          rw [← hsplit, ← hline] at hmem
          exact absurd (List.mem_takeWhile_imp hmem) (by decide)
        rw [if_neg (not_or.2 ⟨hne, hlast⟩), ← hrest, hsplit, List.tail_nil, if_pos (Or.inl rfl), List.append_nil,
          List.append_nil,
          List.append_assoc]
      | cons b bs =>
        have hb : b = 10 := by
          have hhead := List.head_dropWhile_not (· != (10 : UInt8)) (l := is)
            (by rw [hdrop]; exact List.cons_ne_nil b bs)
          simpa [hdrop] using hhead
        rw [hdrop, List.tail_cons] at hrest
        rw [hdrop, hline, hb, hrest] at hsplit
        have hend : (rest = [] ∨ rest.getLast? = some 10) ↔ is = [] ∨ is.getLast? = some 10 := by
          rw [← hsplit]
          by_cases hnil : rest = []
          · rw [hnil]
            simp
          · rw [List.getLast?_append_of_ne_nil _ (List.cons_ne_nil 10 rest), List.getLast?_cons_of_ne_nil hnil]
            simp [hnil]
        rw [if_congr hend rfl rfl, List.append_assoc fileContents, List.append_assoc fileContents,
          List.append_assoc ipBuffer,
          List.singleton_append, hsplit]

/-- The length tells where a header ends. -/
lemma header_inj {responseCode body body' : Bytes} {m n : Nat}
    (h : header responseCode m ++ body = header responseCode n ++ body') :
    body = body' := by
  have hdigits : ∀ n rest, (decimal n ++ (ascii "\r\n\r\n" ++ rest)).takeWhile isDigit = decimal n := by
    intro n rest
    rw [List.takeWhile_append_of_pos fun b hb => List.all_eq_true.1 (isDigit_decimal n) b hb]
    exact List.append_nil _
  simp only [header, List.append_assoc, List.append_cancel_left_eq] at h
  have hsame := congrArg (List.takeWhile isDigit) h
  rw [hdigits, hdigits] at hsame
  rw [hsame, List.append_cancel_left_eq, List.append_cancel_left_eq] at h
  exact h

/-! ## Confinement -/

lemma lexicallyRelative_append (base below : Place) :
    lexicallyRelative (base ++ below) base = if below = [] then [Path.dot] else below := by
  induction base with
  | nil => cases below <;> rfl
  | cons b base ih => rw [List.cons_append, lexicallyRelative, if_pos rfl, ih]

lemma lexicallyRelative_of_not_prefix {p base : Place} (h : ¬ base <+: p) :
    ∃ rest, lexicallyRelative p base = Path.dotDot :: rest := by
  induction p, base using lexicallyRelative.induct with
  | case1 => exact absurd (List.prefix_refl _) h
  | case2 => exact absurd List.nil_prefix h
  | case3 base hne =>
    cases base with
    | nil => exact absurd List.nil_prefix h
    | cons b base => exact ⟨_, rfl⟩
  | case4 p b base ih =>
    rw [lexicallyRelative, if_pos rfl]
    exact ih fun hpre => h (List.cons_prefix_cons.2 ⟨rfl, hpre⟩)
  | case5 c p b base hne =>
    rw [lexicallyRelative, if_neg hne]
    exact ⟨_, rfl⟩

lemma prefix_joined_of_dotDot (rest : List Bytes) : Path.dotDot <+: Path.joined (Path.dotDot :: rest) := by
  by_cases h : rest = []
  · rw [h, Path.joined_singleton]
  · rw [Path.joined_cons _ h]
    exact List.prefix_append _ _

lemma take_eq_dotDot (p : Bytes) : p.take 2 = Path.dotDot ↔ Path.dotDot <+: p :=
  ⟨fun h => List.prefix_iff_eq_take.2 h.symm, fun h => (List.prefix_iff_eq_take.1 h).symm⟩

namespace Site

variable {site : Site} {place : Place}

/-- What passes for valid lies in the directory, and its name from there does not begin with two dots. -/
lemma validPath_iff : site.validPath place = true ↔
    ∃ below, place = site.base ++ below ∧ ¬ Path.dotDot <+: Path.joined below := by
  have hvalid : site.validPath place = true ↔ ¬ Path.dotDot <+: Path.joined (lexicallyRelative place site.base) := by
    rw [validPath, Bool.or_eq_true, beq_iff_eq, bne_iff_ne, ne_eq, take_eq_dotDot]
    refine ⟨fun h hpre => ?_, Or.inr⟩
    rcases h with h | h
    · have hle := hpre.length_le
      rw [h] at hle
      exact absurd hle (by decide)
    · exact h hpre
  rw [hvalid]
  by_cases hpre : site.base <+: place
  · obtain ⟨below, rfl⟩ := hpre
    rw [lexicallyRelative_append]
    have hbelow : (∃ below', site.base ++ below = site.base ++ below' ∧ ¬ Path.dotDot <+: Path.joined below') ↔
        ¬ Path.dotDot <+: Path.joined below := by
      simp only [List.append_cancel_left_eq, exists_eq_left']
    rw [hbelow]
    split
    · rename_i hnil
      rw [hnil]
      exact iff_of_true (by decide) (by decide)
    · rfl
  · obtain ⟨rest, hrest⟩ := lexicallyRelative_of_not_prefix hpre
    rw [hrest]
    exact iff_of_false (not_not_intro (prefix_joined_of_dotDot rest)) fun ⟨below, hbelow, _⟩ =>
      hpre ⟨below, hbelow.symm⟩

/-- A file is sent as it is exactly if it is empty, or it can be read and its last line has an end. -/
lemma response_eq_iff {document : Document} (hfile : site.disk.files place = some (.file document)) :
    (site.respond (ascii "200 OK") (some place)).response = header (ascii "200 OK") document.contents.length ++ document.contents ↔
      document.contents = [] ∨ document.readable = true ∧ document.contents.getLast? = some 10 := by
  have hread : site.readFile place = if document.readable = true then copyLines [] document.contents else [] := by
    rw [readFile, hfile]
  have hbody : (site.respond (ascii "200 OK") (some place)).response =
      header (ascii "200 OK") document.contents.length ++ document.contents ↔ site.readFile place = document.contents := by
    refine ⟨header_inj, fun h => ?_⟩
    rw [respond, Option.elim_some, h]
  rw [hbody, hread]
  by_cases hreadable : document.readable = true
  · rw [if_pos hreadable, copyLines_eq, List.nil_append]
    split
    · rename_i hend
      exact iff_of_true (List.append_nil _) (hend.imp_right fun hlast => ⟨hreadable, hlast⟩)
    · rename_i hend
      refine iff_of_false (fun heq => ?_) fun h => hend (h.imp_right And.right)
      have hlength := congrArg List.length heq
      rw [List.length_append, List.length_singleton] at hlength
      omega
  · rw [if_neg hreadable]
    exact eq_comm.trans (or_iff_left fun h => hreadable h.1).symm

lemma answer_of_valid {buffer : Bytes} (hget : reqType buffer = ascii "GET") (hlookup : site.disk.lookup (site.reqPath buffer) = .at place)
    (hvalid : site.validPath place = true) : site.answer buffer = some (site.respond (ascii "200 OK") (some place)) := by
  have hexists : site.disk.exists? (site.reqPath buffer) = some true := by rw [Disk.exists?, hlookup]
  rw [answer, hexists]
  dsimp only
  rw [if_pos hget, hlookup]
  exact if_pos hvalid

lemma valid_of_opened {buffer : Bytes} {reply : Reply} (h : site.answer buffer = some reply)
    (hopened : reply.opened = some place) :
    reqType buffer = ascii "GET" ∧ site.disk.lookup (site.reqPath buffer) = .at place ∧ site.validPath place = true ∧
      reply = site.respond (ascii "200 OK") (some place) := by
  rw [answer] at h
  split at h
  · cases h
  · split at h
    · rename_i hget
      split at h
      · rename_i place' hlookup
        split at h
        · rename_i hvalid
          obtain rfl := Option.some.inj h
          obtain rfl := Option.some.inj hopened
          exact ⟨hget, hlookup, hvalid, rfl⟩
        · obtain rfl := Option.some.inj h
          cases hopened
      · obtain rfl := Option.some.inj h
        cases hopened
    · obtain rfl := Option.some.inj h
      cases hopened

/-- A request is answered as it should exactly if the read leaves a zero byte in the buffer and what is asked for, if
it is there and in the directory, can be read as it is. -/
theorem correct_iff (site : Site) (sent : Bytes) (n : Nat) :
    site.Correct (recv sent n) ↔ site.Served (recv sent n) := by
  rw [Correct, Served, handleClient]
  by_cases hbuffer : (recv sent n).length < 512 ∨ 0 ∈ recv sent n
  · rw [cBuffer_eq hbuffer, and_iff_right hbuffer, Option.map_some]
    generalize Path.cString (recv sent n) = buffer
    simp only [Option.some.injEq, exists_eq_left']
    constructor
    · intro h hget place document hlookup hfile below hbelow hdots
      have hvalid := validPath_iff.2 ⟨below, hbelow, hdots⟩
      exact (response_eq_iff hfile).1 ((h _ (answer_of_valid hget hlookup hvalid) place rfl).2 document hfile)
    · intro h reply hreply place hopened
      obtain ⟨hget, hlookup, hvalid, rfl⟩ := valid_of_opened hreply hopened
      obtain ⟨below, hbelow, hdots⟩ := validPath_iff.1 hvalid
      exact ⟨⟨below, hbelow.symm⟩, fun document hfile =>
        (response_eq_iff hfile).2 (h hget place document hlookup hfile below hbelow hdots)⟩
  · rw [cBuffer_eq_none hbuffer]
    refine iff_of_false ?_ fun h => hbuffer h.1
    rintro ⟨_, h, _⟩
    cases h

section Examples

/-- A directory with a file of one character. -/
def oneFile : Site where
  disk := ⟨fun place => if place = [ascii "d"] then some .directory
    else if place = [ascii "d", ascii "f"] then some (.file ⟨ascii "x", true⟩) else none, []⟩
  serveDirectory := ascii "/d"
  base := [ascii "d"]
  found := rfl

/-- The last line of a file is sent with an end that it does not have. -/
theorem not_correct_get : ¬ ∀ (site : Site) (sent : Bytes) (n : Nat), site.Correct (recv sent n) := by
  intro h
  obtain ⟨outcome, houtcome, hreply⟩ := h oneFile (ascii "GET /f HTTP/1.1\r\n\r\n") 512
  have hanswer := @answer_of_valid oneFile [ascii "d", ascii "f"] (ascii "GET /f HTTP/1.1\r\n\r\n") rfl rfl rfl
  have hbuffer : cBuffer (recv (ascii "GET /f HTTP/1.1\r\n\r\n") 512) = some (ascii "GET /f HTTP/1.1\r\n\r\n") := rfl
  rw [handleClient, hbuffer, Option.map_some, hanswer] at houtcome
  obtain rfl := Option.some.inj houtcome
  have hresponse := (hreply _ rfl [ascii "d", ascii "f"] rfl).2 ⟨ascii "x", true⟩ rfl
  exact absurd ((response_eq_iff rfl).1 hresponse) (by decide)

end Examples

end Site

end CppExperiments.Net.HttpServer
