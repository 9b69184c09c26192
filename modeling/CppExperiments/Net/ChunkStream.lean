import CppExperiments.Net.Streaming

/-!
# Chunks that are delivered

When every chunk of a response reaches the callback: the reads that end like a line must come late enough for their
chunks, and there must be enough of them.
-/

namespace CppExperiments.Net

/-! ## Responses -/

/-- A response of chunks. The last chunk is the empty one. -/
structure ChunkedResponse where
  statusCode : Bytes
  reason : Bytes
  fields : List Field
  chunks : List Chunk
  last : Chunk

/-- The transfer coding, in letters of any case, with white space around it. -/
def IsChunkedCoding (value : Bytes) : Prop :=
  ∃ front word rear : Bytes, value = front ++ (word ++ rear) ∧ (∀ b ∈ front ++ rear, b = 32 ∨ b = 9) ∧ lower word = ascii "chunked"

namespace ChunkedResponse

variable (r : ChunkedResponse)

def statusLine : Bytes := ascii "HTTP/1.1 " ++ (r.statusCode ++ 32 :: r.reason)

def head : Bytes := r.statusLine ++ headerBlock r.fields

def pieces : List Bytes := r.chunks.map Chunk.text ++ [r.last.text]

def text : Bytes := r.head ++ r.pieces.flatten

/-- The field of the transfer coding. -/
def coding : List Field := r.fields.filter fun f => f.key == ascii "transfer-encoding"

structure WellFormed : Prop where
  statusCode : r.statusCode.length = 3 ∧ ∀ b ∈ r.statusCode, isDigit b = true
  reason : 13 ∉ r.reason
  fields : ∀ f ∈ r.fields, f.WellFormed
  coding : ∃ f, r.coding = [f] ∧ IsChunkedCoding f.value
  length : ∀ f ∈ r.fields, f.key ≠ ascii "content-length"
  chunks : ∀ c ∈ r.chunks, c.WellFormed ∧ c.data ≠ []
  last : r.last.WellFormed ∧ r.last.data = []
  size : r.text.length < 2 ^ 64

/-- The callback gets every chunk, in their order, and the loop is left. -/
def Delivered (reads : List Bytes) : Prop :=
  ∃ responses, stream (fun _ => true) reads = some responses ∧ responses.map HttpResponse.body = r.chunks.map Chunk.data

/-- What has been read ends like a line. -/
def Ended (cut : Nat) : Bool := crlf.isSuffixOf (r.text.take cut)

/-- Where the chunks end. -/
def ends : List Nat := cuts r.head.length r.pieces

/-- The first read that goes beyond the first chunk ends like a line, and so do enough of the reads behind it: for
every later chunk there are as many that reach its end as there are chunks from it on. -/
def EndedInTime (reads : List Nat) : Prop :=
  match reads.dropWhile fun cut => decide (cut ≤ r.ends.headD 0) with
  | [] => False
  | cut :: later => r.Ended cut = true ∧
      ∀ front need rest, r.ends.tail = front ++ need :: rest → rest.length < (later.filter r.Ended).countP (need ≤ ·)

/-- The coding is written in small letters between blanks, and the reads, with that of the end among them, end in time.
-/
def InTime (reads : List Bytes) : Prop :=
  (∀ f ∈ r.coding, trimStr f.value = ascii "chunked") ∧ r.EndedInTime (cuts 0 (reads ++ [[]]))

end ChunkedResponse

variable {r : ChunkedResponse} {c : Chunk} {chunks : List Chunk} {buffer rest received : Bytes} {reads : List Bytes}
  {n : Nat}

/-! ## The first chunk of a buffer -/

lemma find_crlf_prefix (h : c.WellFormed) (hbuffer : buffer <+: c.text ++ rest) :
    find crlf buffer = if buffer.length < c.sizeLine.length + 2 then none else some c.sizeLine.length := by
  obtain ⟨tail, htail⟩ := hbuffer
  have hwhole := find_chunk h rest
  split
  · rename_i hshort
    rw [Option.eq_none_iff_forall_ne_some]
    intro i hi
    have hle := add_length_le_of_find hi (by decide)
    have hi' := find_append_right hi tail
    rw [htail, hwhole] at hi'
    have heq := Option.some.inj hi'
    have hcrlf : crlf.length = 2 := rfl
    omega
  · rename_i hlong
    have hcrlf : crlf.length = 2 := rfl
    have hpre : c.sizeLine ++ crlf <+: buffer := by
      refine List.prefix_of_prefix_length_le ⟨c.data ++ crlf ++ rest, ?_⟩ ⟨tail, htail⟩ ?_
      · rw [Chunk.text]
        simp
      · rw [List.length_append]
        omega
    obtain ⟨data, rfl⟩ := hpre
    exact @find_append [10] _ _ (no_cr_sizeLine h) data

lemma take_sizeLine (hbuffer : buffer <+: c.text ++ rest) (hlong : c.sizeLine.length ≤ buffer.length) :
    buffer.take c.sizeLine.length = c.sizeLine := by
  obtain ⟨tail, htail⟩ := hbuffer
  rw [← List.take_append_of_le_length hlong, htail, Chunk.text, List.append_assoc, List.take_left' rfl]

/-- A first chunk is complete when there is something behind it. -/
lemma walkChunks_first (h : c.WellFormed) (hsize : (c.text ++ rest).length < 2 ^ 64)
    (hbuffer : buffer <+: c.text ++ rest) :
    walkChunks false (n + 1) buffer = some (decide (c.text.length < buffer.length)) := by
  have hlength := length_chunk c
  rw [List.length_append] at hsize
  rw [walkChunks, find_crlf_prefix h hbuffer]
  by_cases hshort : buffer.length < c.sizeLine.length + 2
  · rw [if_pos hshort, decide_eq_false (by omega)]
  · have hmod : (c.sizeLine.length + 4 + c.data.length) % 2 ^ 64 = c.text.length := by
      rw [Nat.mod_eq_of_lt (by omega), hlength]
    rw [if_neg hshort]
    dsimp only
    rw [take_sizeLine hbuffer (by omega), stoulHex_sizeLine h (by omega)]
    dsimp only
    rw [hmod]
    by_cases hlong : buffer.length ≤ c.text.length
    · rw [if_pos hlong, decide_eq_false (by omega)]
    · rw [if_neg hlong, if_neg (fun hwalk => Bool.noConfusion hwalk.1), decide_eq_true (by omega)]

/-- A first chunk is taken when it is there as a whole and the buffer ends like a line. -/
lemma unchunkBody_first (h : c.WellFormed) (hsize : (c.text ++ rest).length < 2 ^ 64)
    (hbuffer : buffer <+: c.text ++ rest) :
    unchunkBody buffer =
      some (if c.text.length ≤ buffer.length ∧
        crlf <:+ buffer then some (c.data, buffer.drop c.text.length) else none) := by
  have hlength := length_chunk c
  rw [List.length_append] at hsize
  rw [unchunkBody, find_crlf_prefix h hbuffer]
  by_cases hshort : buffer.length < c.sizeLine.length + 2
  · rw [if_pos hshort, if_neg (by omega)]
  · have hmod : (c.sizeLine.length + 2 + c.data.length + 2) % 2 ^ 64 = c.text.length := by
      rw [Nat.mod_eq_of_lt (by omega), hlength]
      omega
    rw [if_neg hshort]
    dsimp only
    by_cases hend : crlf <:+ buffer
    · rw [if_neg (not_not_intro hend), take_sizeLine hbuffer (by omega), stoulHex_sizeLine h (by omega)]
      dsimp only
      rw [hmod]
      by_cases hlong : buffer.length < c.text.length
      · rw [if_pos hlong, if_neg (by omega)]
      · rw [if_neg hlong, if_pos ⟨by omega, hend⟩]
        have hdata : (buffer.drop (c.sizeLine.length + 2)).take c.data.length = c.data := by
          obtain ⟨tail, htail⟩ := hbuffer
          have hcrlf : crlf.length = 2 := rfl
          have hlate : c.data.length ≤ (buffer.drop (c.sizeLine.length + 2)).length := by
            rw [List.length_drop]
            omega
          rw [← List.take_append_of_le_length hlate, ← List.drop_append_of_le_length (by omega), htail,
            ← List.drop_drop,
            Chunk.text, List.append_assoc, List.drop_left' rfl, List.append_assoc, List.drop_left' hcrlf,
              List.append_assoc,
            List.take_left' rfl]
        rw [hdata]
    · rw [if_pos hend, if_neg fun hboth => hend hboth.2]

/-! ## The loop behind the first chunk -/

/-- What is read ends like a line if the buffer does, where that is long enough. -/
lemma suffix_append_iff {front sub : Bytes} (h : sub.length ≤ buffer.length) :
    sub <:+ front ++ buffer ↔ sub <:+ buffer :=
  ⟨fun hsub => List.suffix_of_suffix_length_le hsub (List.suffix_append front buffer) h,
    fun hsub => hsub.trans (List.suffix_append front buffer)⟩

variable {s : Stream} {text front : Bytes} {todo : List Chunk} {last : Chunk}

lemma round_chunked (hstate : s.state = .CHUNKED) (h : c.WellFormed) (hsize : (c.text ++ rest).length < 2 ^ 64)
    (hbuffer : s.rawResp ++ received <+: c.text ++ rest) : s.round received =
      if c.text.length ≤ (s.rawResp ++ received).length ∧ crlf <:+ s.rawResp ++ received then
        if c.data = [] then .done
        else .call ⟨(s.rawResp ++ received).drop c.text.length, { s.httpResp with body := c.data }, .CHUNKED⟩
      else .next { s with rawResp := s.rawResp ++ received } := by
  rw [Stream.round, hstate]
  dsimp only
  rw [unchunkBody_first h hsize hbuffer]
  by_cases hwhole : c.text.length ≤ (s.rawResp ++ received).length ∧ crlf <:+ s.rawResp ++ received
  · rw [if_pos hwhole, if_pos hwhole]
  · rw [if_neg hwhole, if_neg hwhole]

/-- The chunks that are left are delivered exactly if their ends are met by the reads that end like a line. -/
lemma loop_chunked (htodo : ∀ c ∈ todo, c.WellFormed ∧ c.data ≠ []) (hlast : last.WellFormed ∧ last.data = [])
    (hsize : text.length < 2 ^ 64) (htext : text = front ++ (todo.map Chunk.text ++ [last.text]).flatten)
    (hreads : text = front ++ (s.rawResp ++ reads.flatten)) (hstate : s.state = .CHUNKED) :
    (∃ responses, s.loop (fun _ => true) reads = some responses ∧ responses.map HttpResponse.body =
      todo.map Chunk.data) ↔
      Met (cuts front.length (todo.map Chunk.text ++ [last.text]))
        ((cuts (front.length + s.rawResp.length) reads).filter fun cut => crlf.isSuffixOf (text.take cut)) := by
  induction reads generalizing s front todo with
  | nil =>
    have hcuts : ∃ need needs, cuts front.length (todo.map Chunk.text ++ [last.text]) = need :: needs := by
      cases todo with
      | nil => exact ⟨_, _, rfl⟩
      | cons c todo => exact ⟨_, _, rfl⟩
    obtain ⟨need, needs, hcuts⟩ := hcuts
    rw [hcuts]
    refine iff_of_false ?_ id
    rintro ⟨responses, hloop, -⟩
    cases hloop
  | cons received reads ih =>
    have hend : text.take (front.length + (s.rawResp ++ received).length) = front ++ (s.rawResp ++ received) := by
      rw [hreads, List.flatten_cons, ← List.append_assoc s.rawResp, ← List.append_assoc front, ← List.length_append,
        List.take_left' rfl]
    have hended : ∀ n, n = front.length + (s.rawResp ++ received).length → 2 ≤ (s.rawResp ++ received).length →
        (crlf.isSuffixOf (text.take n) = true ↔ crlf <:+ s.rawResp ++ received) := by
      intro n hn hlong
      rw [hn, hend, List.isSuffixOf_iff_suffix]
      exact suffix_append_iff hlong
    have hskip : (∃ responses, Stream.loop (fun _ => true) { s with rawResp := s.rawResp ++ received } reads =
      some responses ∧
        responses.map HttpResponse.body = todo.map Chunk.data) ↔
          Met (cuts front.length (todo.map Chunk.text ++ [last.text]))
            ((cuts (front.length + (s.rawResp ++ received).length) reads).filter fun cut => crlf.isSuffixOf
              (text.take cut)) := by
      refine ih htodo htext ?_ hstate
      rw [hreads, List.flatten_cons, List.append_assoc s.rawResp]
    have hnext : front.length + s.rawResp.length + received.length = front.length + (s.rawResp ++ received).length := by
      rw [List.length_append, Nat.add_assoc]
    have hpre : ∀ c rest, text = front ++ (c ++ rest) → s.rawResp ++ received <+: c ++ rest := by
      intro c rest heq
      rw [hreads, List.flatten_cons, List.append_cancel_left_eq, ← List.append_assoc] at heq
      exact ⟨_, heq⟩
    have hmet : ∀ (c : Chunk) (needs later : List Nat), Met ((front.length + c.text.length) :: needs)
        ((((front.length + (s.rawResp ++ received).length) :: later)).filter fun cut => crlf.isSuffixOf
          (text.take cut)) ↔
          if c.text.length ≤ (s.rawResp ++ received).length ∧ crlf <:+ s.rawResp ++ received then
            Met needs (later.filter fun cut => crlf.isSuffixOf (text.take cut))
          else Met ((front.length + c.text.length) :: needs)
            (later.filter fun cut => crlf.isSuffixOf (text.take cut)) := by
      intro c needs later
      have hlength := length_chunk c
      by_cases hlong : c.text.length ≤ (s.rawResp ++ received).length
      · have hiff := hended _ rfl (by omega)
        by_cases hcrlf : crlf <:+ s.rawResp ++ received
        · rw [List.filter_cons_of_pos (by simpa using hiff.2 hcrlf), if_pos ⟨hlong, hcrlf⟩, Met, if_pos (by omega)]
        · rw [List.filter_cons_of_neg (by simpa using fun h => hcrlf (hiff.1 h)), if_neg fun h => hcrlf h.2]
      · rw [if_neg fun h => hlong h.1, List.filter_cons]
        split
        · rw [Met, if_neg (by omega)]
        · rfl
    rw [cuts, hnext]
    cases todo with
    | nil =>
      have hround := @round_chunked last [] received s hstate hlast.1 ?_ (hpre last.text [] (by rw [htext]; simp))
      · have hcuts : cuts front.length (([] : List Chunk).map Chunk.text ++ [last.text]) =
          [front.length + last.text.length] := rfl
        rw [Stream.loop, hround, hcuts, hmet last]
        rw [hcuts] at hskip
        by_cases hwhole : last.text.length ≤ (s.rawResp ++ received).length ∧ crlf <:+ s.rawResp ++ received
        · rw [if_pos hwhole, if_pos hwhole, if_pos hlast.2]
          exact iff_of_true ⟨[], rfl, rfl⟩ (met_nil _)
        · rw [if_neg hwhole, if_neg hwhole]
          exact hskip
      · rw [htext, List.length_append] at hsize
        simp only [List.map_nil, List.nil_append, List.flatten_cons, List.flatten_nil] at hsize
        omega
    | cons c todo =>
      rw [List.forall_mem_cons] at htodo
      have hpieces : ((c :: todo).map Chunk.text ++ [last.text]).flatten =
          c.text ++ (todo.map Chunk.text ++ [last.text]).flatten := by
        rw [List.map_cons, List.cons_append, List.flatten_cons]
      rw [hpieces] at htext
      have hround := @round_chunked c _ received s hstate htodo.1.1 ?_ (hpre c.text _ htext)
      · have hcuts : cuts front.length ((c :: todo).map Chunk.text ++ [last.text]) =
            (front.length + c.text.length) :: cuts (front.length + c.text.length)
              (todo.map Chunk.text ++ [last.text]) := rfl
        rw [Stream.loop, hround, hcuts, hmet c]
        rw [hcuts] at hskip
        by_cases hwhole : c.text.length ≤ (s.rawResp ++ received).length ∧ crlf <:+ s.rawResp ++ received
        · rw [if_pos hwhole, if_pos hwhole, if_neg htodo.1.2]
          dsimp only
          rw [if_pos rfl]
          have htaken : s.rawResp ++ received = c.text ++ (s.rawResp ++ received).drop c.text.length := by
            have hfirst : c.text <+: s.rawResp ++ received :=
              List.prefix_of_prefix_length_le (List.prefix_append c.text _) (hpre c.text _ htext) hwhole.1
            exact (List.prefix_iff_eq_append.1 hfirst).symm
          have hlater : front.length + (s.rawResp ++ received).length =
              (front ++ c.text).length + ((s.rawResp ++ received).drop c.text.length).length := by
            rw [@List.length_append _ front, List.length_drop]
            omega
          have ih := @ih ⟨(s.rawResp ++ received).drop c.text.length, { s.httpResp with body := c.data }, .CHUNKED⟩
            (front ++ c.text) todo
            htodo.2 (by rw [htext, List.append_assoc]) ?_ rfl
          · rw [hlater, ← List.length_append, ← ih]
            simp only [Option.map_eq_some_iff, List.map_cons]
            constructor
            · rintro ⟨_, ⟨responses, hloop, rfl⟩, hbodies⟩
              exact ⟨responses, hloop, (List.cons.inj hbodies).2⟩
            · rintro ⟨responses, hloop, hbodies⟩
              exact ⟨_, ⟨responses, hloop, rfl⟩, by rw [List.map_cons, hbodies]⟩
          · rw [hreads, List.flatten_cons, ← List.append_assoc s.rawResp, htaken]
            simp
        · rw [if_neg hwhole, if_neg hwhole]
          exact hskip
      · rw [htext, List.length_append] at hsize
        omega

/-! ## The first chunk of a response -/

lemma stoi_statusCode {code : Bytes} (hlength : code.length = 3) (hdigits : ∀ b ∈ code, isDigit b = true) :
    stoi code = some (Int.ofNat (digitsValue code)) := by
  have hne : code ≠ [] := List.ne_nil_of_length_pos (by omega)
  have hhead : ∀ b ∈ code.head?, isDigit b = true := fun b hb => hdigits b (List.mem_of_mem_head? hb)
  have hdrop : code.dropWhile isSpace = code :=
    dropWhile_eq_self_iff_head.2 fun b hb => (not_isSpace_of_isDigit (hhead b hb)).1
  have hplus : code.head? ≠ some 43 := fun hb => (not_isSpace_of_isDigit (hhead 43 hb)).2.1 rfl
  have hminus : code.head? ≠ some 45 := fun hb => (not_isSpace_of_isDigit (hhead 45 hb)).2.2 rfl
  have hsmall : digitsValue code < 1000 := by
    match code, hlength with
    | [a, b, c], _ =>
      have ha := digit_le_nine (hdigits a (by simp))
      have hb := digit_le_nine (hdigits b (by simp))
      have hc := digit_le_nine (hdigits c (by simp))
      simp only [digitsValue, List.foldl_cons, List.foldl_nil]
      omega
  have hpre : integerPrefix code = some (Int.ofNat (digitsValue code)) := by
    rw [integerPrefix, hdrop, if_neg hplus, signedPrefix, if_neg hminus,
      digitPrefix_of_all (List.all_eq_true.2 hdigits) hne]
    rfl
  have hfits : -2 ^ 31 ≤ Int.ofNat (digitsValue code) ∧ Int.ofNat (digitsValue code) < 2 ^ 31 := by
    rw [Int.ofNat_eq_natCast]
    omega
  rw [stoi, hpre, Option.filter_some, decide_eq_true hfits]
  rfl

lemma statusWord_trimStr {code : Bytes} (reason : Bytes) (hlength : code.length = 3)
    (hdigits : ∀ b ∈ code, isDigit b = true) :
    HttpResponse.statusWord (trimStr (ascii "HTTP/1.1 " ++ (code ++ 32 :: reason))) = some code := by
  have hne : code ≠ [] := List.ne_nil_of_length_pos (by omega)
  have hblank : ∀ b ∈ code, (b == 32) = false := by
    intro b hb
    rw [beq_eq_false_iff_ne]
    rintro rfl
    exact absurd (hdigits 32 hb) (by decide)
  have hkeep : (ascii "HTTP/1.1 " ++ code).rdropWhile (· == 32) = ascii "HTTP/1.1 " ++ code := by
    rw [List.rdropWhile_eq_self_iff]
    intro hcode
    rw [List.getLast_append_of_ne_nil _ hne, hblank _ (List.getLast_mem hne)]
    decide
  obtain ⟨rear, hrear, hhead⟩ : ∃ rear, (32 :: reason).rdropWhile (· == 32) = rear ∧ ∀ b ∈ rear.head?, b = 32 := by
    refine ⟨_, rfl, fun b hb => ?_⟩
    obtain ⟨tail, htail⟩ := List.rdropWhile_prefix (· == 32) (32 :: reason)
    cases hlist : (32 :: reason).rdropWhile (· == 32) with
    | nil =>
      rw [hlist] at hb
      cases hb
    | cons d ds =>
      rw [hlist] at hb htail
      rw [← Option.some.inj hb]
      exact (List.cons.inj htail).1
  have htrim : trimStr (ascii "HTTP/1.1 " ++ (code ++ 32 :: reason)) = ascii "HTTP/1.1 " ++ (code ++ rear) := by
    have hfront : (ascii "HTTP/1.1 " ++ (code ++ 32 :: reason)).dropWhile (· == 32) = ascii "HTTP/1.1 " ++ (code ++ 32 :: reason) := rfl
    rw [trimStr, hfront, ← List.append_assoc, rdropWhile_append_of_self hkeep, hrear, List.append_assoc]
  have hfind : find [32] (ascii "HTTP/1.1 " ++ (code ++ rear)) = some 8 :=
    
    @find_append [] (ascii "HTTP/1.1") 32 (by decide) (code ++ rear)
  have hdrop : (ascii "HTTP/1.1 " ++ (code ++ rear)).drop (8 + 1) = code ++ rear := rfl
  have hstart : (code ++ rear).dropWhile (· == 32) = code ++ rear := by
    refine dropWhile_eq_self_iff_head.2 fun b hb => hblank b ?_
    rw [List.head?_append_of_ne_nil _ hne] at hb
    exact List.mem_of_mem_head? hb
  have htake : (code ++ rear).takeWhile (· != 32) = code := by
    refine takeWhile_append_of_all (fun b hb => ?_) fun b hb => ?_
    · rw [bne, hblank b hb]
      rfl
    · rw [hhead b hb]
      rfl
  rw [htrim, HttpResponse.statusWord, hfind]
  simp only [Option.bind_eq_bind, Option.bind_some, hdrop, hstart, htake]
  rw [if_neg (List.append_ne_nil_of_left_ne_nil hne rear)]

namespace ChunkedResponse

lemma WellFormed.not_cr (h : r.WellFormed) : 13 ∉ r.statusLine := by
  have hcode : 13 ∉ r.statusCode := fun hmem => absurd (h.statusCode.2 13 hmem) (by decide)
  have hreason := h.reason
  rw [statusLine, List.mem_append, List.mem_append, List.mem_cons, not_or, not_or, not_or]
  exact ⟨by decide, hcode, by decide, hreason⟩

lemma WellFormed.fromString (h : r.WellFormed) (body : Bytes) : HttpResponse.fromString (r.head ++ body) =
    some ⟨r.head ++ body, body, Int.ofNat (digitsValue r.statusCode), headersOf r.fields⟩ := by
  obtain ⟨hfind, hend⟩ := findFrom_start h.not_cr h.fields body
  have hlength := length_headerBlock r.fields
  have hcrlf : crlf.length = 2 := rfl
  have hraw : ((r.statusLine ++ (headerBlock r.fields ++ body)).drop (r.statusLine.length + 2)).take
      (r.statusLine.length + (fieldLines r.fields).length - r.statusLine.length) = fieldLines r.fields := by
    rw [← List.drop_drop, List.drop_left' rfl, headerBlock, List.append_assoc, List.drop_left' hcrlf, List.append_assoc,
      List.take_left' (by omega)]
  have hbody : (r.statusLine ++ (headerBlock r.fields ++ body)).drop
    (r.statusLine.length + (fieldLines r.fields).length + 4) = body := by
    rw [Nat.add_assoc, ← List.drop_drop, List.drop_left' rfl, List.drop_left' hlength]
  have hparse : parseHttpString (r.head ++ body) = some (trimStr r.statusLine, headersOf r.fields, body) := by
    rw [head, List.append_assoc, parseHttpString, hfind]
    simp only [Option.bind_eq_bind, Option.bind_some, hend, hraw, hbody,
      parseHeadersFromString_fieldLines (fun f hf => (h.fields f hf).readable),
      List.take_left']
  rw [HttpResponse.fromString, hparse]
  simp only [Option.bind_eq_bind, Option.bind_some]
  rw [statusLine, statusWord_trimStr r.reason h.statusCode.1 h.statusCode.2, Option.bind_some,
    stoi_statusCode h.statusCode.1 h.statusCode.2,
    Option.bind_some]

lemma coding_eq {f : Field} (hcoding : r.coding = [f]) :
    (headersOf r.fields).values (ascii "transfer-encoding") = some [trimStr f.value] := by
  rw [values_headersOf, ← coding, hcoding, if_neg (List.cons_ne_nil f [])]
  rfl

lemma WellFormed.isComplete (h : r.WellFormed) (body : Bytes) :
    isCompleteHttpRequest (r.head ++ body) false = walkChunks false (body.length + 1) body := by
  obtain ⟨f, hcoding, -⟩ := h.coding
  rw [head, List.append_assoc, isCompleteHttpRequest_head h.not_cr h.fields, bodyComplete, values_headersOf,
    if_pos (filter_key_eq_nil h.length)]
  dsimp only
  rw [coding_eq hcoding]

lemma WellFormed.header (h : r.WellFormed) {response : HttpResponse}
    (hheaders : response.headers = headersOf r.fields) :
    response.header (ascii "transfer-encoding") = ascii "chunked" ↔ ∀ f ∈ r.coding, trimStr f.value = ascii "chunked" := by
  obtain ⟨f, hcoding, -⟩ := h.coding
  have hlower : lower (ascii "transfer-encoding") = ascii "transfer-encoding" := by decide
  rw [HttpResponse.header, hheaders, hlower, coding_eq hcoding, hcoding, List.forall_mem_singleton]
  rfl

/-- The pieces begin with a first chunk; unless it is the last one, it has data. -/
lemma WellFormed.exists_pieces (h : r.WellFormed) : ∃ c rest, r.pieces = c.text :: rest ∧ c.WellFormed ∧
    (rest = [] ∨ ∃ todo, r.chunks = c :: todo ∧ c.data ≠ [] ∧ rest = todo.map Chunk.text ++ [r.last.text]) := by
  cases hchunks : r.chunks with
  | nil =>
    refine ⟨r.last, [], ?_, h.last.1, Or.inl rfl⟩
    rw [pieces, hchunks]
    rfl
  | cons c todo =>
    have hc := h.chunks c (by rw [hchunks]; exact List.mem_cons_self)
    refine ⟨c, todo.map Chunk.text ++ [r.last.text], ?_, hc.1, Or.inr ⟨todo, rfl, hc.2, rfl⟩⟩
    rw [pieces, hchunks]
    rfl

lemma ended_iff {body : Bytes} (hpre : r.head ++ body <+: r.text) (hlong : 2 ≤ body.length) :
    r.Ended (r.head ++ body).length = true ↔ crlf <:+ body := by
  rw [Ended, ← List.prefix_iff_eq_take.1 hpre, List.isSuffixOf_iff_suffix]
  exact suffix_append_iff hlong

/-- What is read up to the end of the first chunk is not complete. -/
lemma WellFormed.isComplete_of_le (h : r.WellFormed) {raw : Bytes} (hraw : raw <+: r.text)
    (hle : raw.length ≤ r.ends.headD 0) :
    isCompleteHttpRequest raw false = some false := by
  obtain ⟨c, rest, hpieces, hc, -⟩ := h.exists_pieces
  have hsize := h.size
  by_cases hshort : raw.length < r.head.length
  · rw [text, head, List.append_assoc] at hraw
    rw [head, List.length_append] at hshort
    exact isCompleteHttpRequest_of_short h.not_cr h.fields hraw hshort
  · obtain ⟨body, rfl⟩ := List.prefix_of_prefix_length_le (List.prefix_append r.head _) hraw (Nat.not_lt.1 hshort)
    rw [text, List.prefix_append_right_inj, hpieces, List.flatten_cons] at hraw
    rw [text, hpieces, List.length_append, List.flatten_cons] at hsize
    rw [ends, hpieces, cuts, List.headD_cons, List.length_append] at hle
    rw [h.isComplete, walkChunks_first hc (by omega) hraw, decide_eq_false (by omega)]

/-- The loop before the first chunk. -/
lemma WellFormed.loop_start (h : r.WellFormed) {s : Stream} (hreads : r.text = s.rawResp ++ reads.flatten)
    (hstate : s.state = .START) :
    (∃ responses, s.loop (fun _ => true) reads = some responses ∧ responses.map HttpResponse.body =
      r.chunks.map Chunk.data) ↔
      (∀ f ∈ r.coding, trimStr f.value = ascii "chunked") ∧ r.EndedInTime (cuts s.rawResp.length reads) := by
  induction reads generalizing s with
  | nil =>
    refine iff_of_false ?_ fun htime => htime.2
    rintro ⟨responses, hloop, -⟩
    cases hloop
  | cons received reads ih =>
    rw [List.flatten_cons, ← List.append_assoc] at hreads
    have hpre : s.rawResp ++ received <+: r.text := ⟨reads.flatten, hreads.symm⟩
    rw [cuts, ← List.length_append, EndedInTime]
    by_cases hle : (s.rawResp ++ received).length ≤ r.ends.headD 0
    · have hround : s.round received = .next { s with rawResp := s.rawResp ++ received } := by
        rw [Stream.round, hstate]
        dsimp only
        rw [h.isComplete_of_le hpre hle]
      rw [Stream.loop, hround, List.dropWhile_cons_of_pos (p := fun cut => decide (cut ≤ r.ends.headD 0))
        (decide_eq_true hle)]
      exact ih hreads hstate
    · rw [List.dropWhile_cons_of_neg (p := fun cut => decide (cut ≤ r.ends.headD 0)) (by simpa using hle)]
      dsimp only
      obtain ⟨c, rest, hpieces, hc, hrest⟩ := h.exists_pieces
      have hends : r.ends = (r.head.length + c.text.length) :: cuts (r.head.length + c.text.length) rest := by
        rw [ends, hpieces]
        rfl
      have hsize := h.size
      have hchunksOk := h.chunks
      rw [hends, List.headD_cons, Nat.not_le] at hle
      rw [hends, List.tail_cons]
      obtain ⟨body, hbody⟩ := List.prefix_of_prefix_length_le (List.prefix_append r.head _) hpre (by omega)
      have hlength := length_chunk c
      rw [← hbody] at hle hpre hreads ⊢
      rw [List.length_append] at hle
      have hended := ended_iff hpre (by omega)
      rw [text, List.prefix_append_right_inj, hpieces, List.flatten_cons] at hpre
      rw [text, hpieces, List.length_append, List.flatten_cons] at hsize
      rcases hrest with rfl | ⟨todo, hchunks, hdata, rfl⟩
      · have hle' := hpre.length_le
        rw [List.flatten_nil, List.append_nil] at hle'
        omega
      have hfirst := @unchunkBody_first c body _ hc (by omega) hpre
      have hcomplete : isCompleteHttpRequest (s.rawResp ++ received) false = some true := by
        rw [← hbody, h.isComplete, walkChunks_first hc (by omega) hpre, decide_eq_true (by omega)]
      have hresponse := h.fromString body
      rw [hbody] at hresponse
      rw [hended, Stream.loop, Stream.round, hstate]
      dsimp only
      rw [hcomplete, hresponse]
      dsimp only
      by_cases hcoding : ∀ f ∈ r.coding, trimStr f.value = ascii "chunked"
      · rw [if_neg (not_not_intro ((h.header rfl).2 hcoding)), hfirst]
        by_cases hcrlf : crlf <:+ body
        · rw [if_pos ⟨by omega, hcrlf⟩]
          dsimp only
          rw [if_neg hdata]
          dsimp only
          rw [if_pos rfl]
          have htaken : body = c.text ++ body.drop c.text.length :=
            (List.prefix_iff_eq_append.1 (List.prefix_of_prefix_length_le (List.prefix_append c.text _) hpre
              (by omega))).symm
          have htext : r.text = (r.head ++ c.text) ++ (todo.map Chunk.text ++ [r.last.text]).flatten := by
            rw [text, hpieces, List.flatten_cons, List.append_assoc]
          have hlater : (r.head ++ c.text).length + (body.drop c.text.length).length = (r.head ++ body).length := by
            rw [List.length_append, List.length_append, List.length_drop]
            omega
          rw [hchunks, List.forall_mem_cons] at hchunksOk
          have hloop : ∀ response : HttpResponse,
            (∃ responses, Stream.loop (fun _ => true) ⟨body.drop c.text.length, response, .CHUNKED⟩
              reads = some responses ∧ responses.map HttpResponse.body = todo.map Chunk.data) ↔
                Met (cuts (r.head ++ c.text).length (todo.map Chunk.text ++ [r.last.text]))
                  ((cuts (r.head ++ body).length reads).filter r.Ended) := by
            intro response
            rw [← hlater]
            refine loop_chunked hchunksOk.2 h.last h.size htext ?_ rfl
            rw [hreads, List.append_assoc r.head, List.append_assoc r.head, ← List.append_assoc c.text, ← htaken]
          rw [← met_iff (pairwise_cuts _ _) ((pairwise_cuts _ _).filter _), ← List.length_append, hchunks]
          constructor
          · rintro ⟨_, hmap, hbodies⟩
            obtain ⟨responses, hrest, rfl⟩ := Option.map_eq_some_iff.1 hmap
            exact ⟨hcoding, hcrlf, (hloop _).1 ⟨responses, hrest, (List.cons.inj hbodies).2⟩⟩
          · rintro ⟨-, -, hmet⟩
            obtain ⟨responses, hrest, hbodies⟩ := (hloop _).2 hmet
            exact ⟨_, Option.map_eq_some_iff.2 ⟨responses, hrest, rfl⟩, by rw [List.map_cons, List.map_cons, hbodies]⟩
        · rw [if_neg fun hboth => hcrlf hboth.2]
          refine iff_of_false ?_ fun htime => hcrlf htime.2.1
          rintro ⟨responses, hloop, -⟩
          cases hloop
      · rw [if_pos fun hheader => hcoding ((h.header rfl).1 hheader)]
        refine iff_of_false ?_ fun htime => hcoding htime.1
        rintro ⟨responses, hloop, hbodies⟩
        obtain rfl := Option.some.inj hloop
        rw [hchunks, List.map_cons, List.map_cons] at hbodies
        have hbody := congrArg List.length (List.cons.inj hbodies).1
        dsimp only at hbody
        omega

/-- Every chunk of a response is delivered exactly if the reads end in time. -/
theorem delivered_iff (h : r.WellFormed) (hreads : reads.flatten = r.text) : r.Delivered reads ↔ r.InTime reads := by
  have hall : r.text = ({} : Stream).rawResp ++ (reads ++ [[]]).flatten := by
    rw [List.flatten_append, hreads]
    exact (List.append_nil _).symm
  exact h.loop_start hall rfl

section Examples

def greeting (chunks : List Chunk) : ChunkedResponse where
  statusCode := ascii "200"
  reason := ascii "OK"
  fields := [⟨ascii "Transfer-Encoding", ascii " chunked"⟩]
  chunks := chunks
  last := ⟨ascii "0", []⟩

lemma wellFormed_greeting (h : ∀ c ∈ chunks, c.WellFormed ∧ c.data ≠ [])
    (hsize : (greeting chunks).text.length < 2 ^ 64) :
    (greeting chunks).WellFormed where
  statusCode := ⟨rfl, forall_mem_of_all rfl⟩
  reason := (by decide : (13 : UInt8) ∉ ascii "OK")
  fields := List.forall_mem_singleton.2 (wellFormed_field (by decide) rfl (by decide) (by decide))
  coding := ⟨⟨ascii "Transfer-Encoding", ascii " chunked"⟩, rfl, [32], ascii "chunked", [], rfl, fun _ hb => Or.inl (List.mem_singleton.1 hb), rfl⟩
  length := List.forall_mem_singleton.2 (by decide)
  chunks := h
  last := ⟨wellFormed_chunk (by decide) rfl rfl, rfl⟩
  size := hsize

def hello : Chunk := ⟨ascii "5", ascii "hello"⟩

lemma wellFormed_hello : hello.WellFormed ∧ hello.data ≠ [] := ⟨wellFormed_chunk (by decide) rfl rfl, by decide⟩

theorem delivered_iff_hello : (greeting [hello]).Delivered [(greeting [hello]).text] ↔
    (greeting [hello]).InTime [(greeting [hello]).text] :=
  delivered_iff (wellFormed_greeting (List.forall_mem_singleton.2 wellFormed_hello) (by decide)) (List.append_nil _)

/-- Two chunks that come with one read: one of them is taken with it, and one with the end. -/
theorem not_delivered_helloHello :
    (greeting [hello, hello]).WellFormed ∧ [(greeting [hello, hello]).text].flatten = (greeting [hello, hello]).text ∧
    ¬ (greeting [hello, hello]).Delivered [(greeting [hello, hello]).text] := by
  have hchunks : ∀ c ∈ [hello, hello], c.WellFormed ∧ c.data ≠ [] := by
    simp only [List.forall_mem_cons]
    exact ⟨wellFormed_hello, wellFormed_hello, by simp⟩
  refine ⟨wellFormed_greeting hchunks (by decide), List.append_nil _, ?_⟩
  rintro ⟨responses, hstream, -⟩
  have hnone : stream (fun _ => true) [(greeting [hello, hello]).text] = none := by decide +kernel
  rw [hnone] at hstream
  cases hstream

end Examples

end ChunkedResponse

end CppExperiments.Net
