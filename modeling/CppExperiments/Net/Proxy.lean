import CppExperiments.Net.Messages

/-!
# The download proxy

What the client gets of a response that arrives in segments, when its headers are rewritten on the way.
-/

namespace CppExperiments.Net

/-! ## The callback -/

/-- The variables that the callback keeps, and what has been sent to the client. -/
structure Pipe where
  first : Bool := true
  acc : Bytes := []
  sent : Bytes := []

/-- The headers that the client gets. -/
def rewrite (filename : Bytes) (headers : Headers) : Headers :=
  (((headers.erase (ascii "server")).set (ascii "connection") (ascii "close")).set (ascii "x-content-type-options")
    (ascii "nosniff")).set (ascii "content-disposition") (ascii "attachment; filename=\"" ++ filename ++ ascii "\"")

/-- The header block; `order` is the order in which a hash map is gone through. -/
def headerText (order : Headers → Headers) (headers : Headers) : Bytes :=
  ascii "HTTP/1.1 200 OK" ++ crlf ++ (order headers).flatMap fun kv => kv.2.flatMap fun val => kv.1 ++ ascii ": " ++ val ++ crlf

namespace Pipe

/-- A segment, and whether more is asked for; `none` where the callback throws. -/
def receive (order : Headers → Headers) (filename : Bytes) (p : Pipe) (raw : Bytes) : Option (Pipe × Bool) :=
  if p.first = false then some ({ p with sent := p.sent ++ raw }, decide (0 < raw.length))
  else
    let p := { p with acc := p.acc ++ raw }
    match find crlf p.acc with
    | none => some (p, true)
    | some headerStart =>
      match findFrom crlfcrlf p.acc (headerStart + 2) with
      | none => some (p, true)
      | some headerEnd => do
        let headers ← parseHeadersFromString ((p.acc.drop (headerStart + 2)).take (headerEnd - headerStart))
        -- `substr` of the segment, at a position in everything received
        if raw.length < headerEnd + 4 then none
        else
          let sendBuffer := headerText order (rewrite filename headers) ++ crlf ++ raw.drop (headerEnd + 4)
          some ({ p with first := false, sent := p.sent ++ sendBuffer }, decide (0 < sendBuffer.length))

/-- What the client has got when the stream is over. -/
def stream (order : Headers → Headers) (filename : Bytes) : Pipe → List Bytes → Bytes
  | p, [] => p.sent
  | p, chunk :: chunks =>
    if chunk = [] then p.sent
    else
      match p.receive order filename chunk with
      | none => p.sent
      | some (p, false) => p.sent
      | some (p, true) => stream order filename p chunks

end Pipe

/-- What the client gets of a response that comes in these segments. -/
def pipeDownloadStream (order : Headers → Headers) (filename : Bytes) (segments : List Bytes) : Bytes :=
  Pipe.stream order filename {} segments

/-! ## Responses -/

structure Response where
  statusLine : Bytes
  fields : List Field
  body : Bytes

namespace Response

def head (r : Response) : Bytes := r.statusLine ++ headerBlock r.fields

def text (r : Response) : Bytes := r.head ++ r.body

structure WellFormed (r : Response) : Prop where
  statusLine : 13 ∉ r.statusLine
  fields : ∀ f ∈ r.fields, f.WellFormed

/-- What the client should get. -/
def piped (order : Headers → Headers) (filename : Bytes) (r : Response) : Bytes :=
  headerText order (rewrite filename (headersOf r.fields)) ++ crlf ++ r.body

end Response

variable {order : Headers → Headers} {filename : Bytes} {r : Response} {p : Pipe} {segments : List Bytes}
  {segment raw : Bytes}

namespace Pipe

/-- Behind the headers everything is passed on. -/
lemma stream_of_not_first (hp : p.first = false) (hsegments : ∀ s ∈ segments, s ≠ []) :
    stream order filename p segments = p.sent ++ segments.flatten := by
  induction segments generalizing p with
  | nil => rw [stream, List.flatten_nil, List.append_nil]
  | cons segment segments ih =>
    rw [List.forall_mem_cons] at hsegments
    have hreceive : p.receive order filename segment = some ({ p with sent := p.sent ++ segment }, true) := by
      rw [receive, if_pos hp, decide_eq_true (List.length_pos_iff.2 hsegments.1)]
    rw [stream, if_neg hsegments.1, hreceive]
    dsimp only
    rw [ih (p := { p with sent := p.sent ++ segment }) hp hsegments.2, List.flatten_cons, List.append_assoc]

end Pipe

lemma head_eq (r : Response) : r.head = r.statusLine ++ (crlf ++ (fieldLines r.fields ++ crlf)) := rfl

lemma length_head (r : Response) : r.head.length = r.statusLine.length + (fieldLines r.fields).length + 4 := by
  rw [Response.head, List.length_append, length_headerBlock, Nat.add_assoc]

lemma find_fieldLines {fields : List Field} (h : ∀ f ∈ fields, f.WellFormed) (hne : fields ≠ []) :
    ∃ i, find crlfcrlf (fieldLines fields ++ crlf) = some i ∧ i + 2 = (fieldLines fields).length := by
  have hfind := find_headerBlock h
  have hpos : 0 < (fieldLines fields).length :=
    Nat.lt_of_lt_of_le (List.length_pos_iff.2 hne) (length_le_fieldLines fields)
  have hsecond : ¬ crlfcrlf <+: 10 :: (fieldLines fields ++ crlf) := fun hp =>
    absurd (List.cons_prefix_cons.1 hp).1 (by decide)
  have hfirst : ¬ crlfcrlf <+: 13 :: 10 :: (fieldLines fields ++ crlf) := by
    intro hp
    rw [headerBlock, crlf_eq, List.cons_append, List.cons_append, List.nil_append, ← crlf_eq,
      find_of_start (by decide) hp] at hfind
    have heq := Option.some.inj hfind
    omega
  rw [headerBlock, crlf_eq, List.cons_append, List.cons_append, List.nil_append, ← crlf_eq, find_cons hfirst,
    find_cons hsecond,
    Option.map_map] at hfind
  obtain ⟨i, hi, heq⟩ := Option.map_eq_some_iff.1 hfind
  exact ⟨i, hi, heq⟩

/-- The positions that are found in what begins with the whole headers. -/
lemma find_head (h : r.WellFormed) (hne : r.fields ≠ []) (rest : Bytes) :
    find crlf (r.head ++ rest) = some r.statusLine.length ∧
    findFrom crlfcrlf (r.head ++ rest) (r.statusLine.length + 2) =
      some (r.statusLine.length + (fieldLines r.fields).length) := by
  obtain ⟨i, hi, heq⟩ := find_fieldLines h.fields hne
  constructor
  · rw [Response.head, List.append_assoc]
    exact (findFrom_start h.statusLine h.fields rest).1
  · have hcrlf : crlf.length = 2 := rfl
    rw [findFrom, head_eq, List.append_assoc, List.append_assoc, ← List.drop_drop, List.drop_left' rfl,
      List.drop_left' hcrlf,
      find_append_right hi, Option.map_some]
    congr 1
    omega

/-- Without the whole headers the callback waits. -/
lemma receive_of_short (h : r.WellFormed) (hne : r.fields ≠ []) (hp : p.first = true) (hpre : p.acc ++ raw <+: r.text)
    (hlen : (p.acc ++ raw).length < r.head.length) :
    p.receive order filename raw = some ({ p with acc := p.acc ++ raw }, true) := by
  obtain ⟨rest, hrest⟩ := hpre
  have hhead := length_head r
  rw [Pipe.receive, if_neg (by simp [hp])]
  dsimp only
  cases hfind : find crlf (p.acc ++ raw) with
  | none => rfl
  | some headerStart =>
    have hfind' := find_append_right hfind rest
    rw [hrest, Response.text, (find_head h hne r.body).1] at hfind'
    obtain rfl := Option.some.inj hfind'
    have hle := add_length_le_of_find hfind (by decide)
    have hcrlf : crlf.length = 2 := rfl
    have hend : findFrom crlfcrlf (p.acc ++ raw) (r.statusLine.length + 2) = none := by
      rw [Option.eq_none_iff_forall_ne_some]
      intro pos hpos
      rw [findFrom, Option.map_eq_some_iff] at hpos
      obtain ⟨i, hi, rfl⟩ := hpos
      have hlong := add_length_le_of_find hi (by decide)
      have hfrom := (find_head h hne r.body).2
      rw [findFrom, ← Response.text, ← hrest, List.drop_append_of_le_length (by omega), find_append_right hi,
        Option.map_some] at hfrom
      have heq := Option.some.inj hfrom
      have hcrlfcrlf : crlfcrlf.length = 4 := rfl
      rw [List.length_drop] at hlong
      omega
    dsimp only
    rw [hend]

/-- With the whole headers they are sent, unless the segment alone is too short. -/
lemma receive_of_long (h : r.WellFormed) (hne : r.fields ≠ []) (hp : p.first = true) (body : Bytes)
    (hacc : p.acc ++ raw = r.head ++ body) :
    p.receive order filename raw = if raw.length < r.head.length then none else some ({ p with
      first := false
      acc := p.acc ++ raw
      sent := p.sent ++ (headerText order (rewrite filename (headersOf r.fields)) ++ crlf ++ raw.drop r.head.length)
        }, true) := by
  have hhead := length_head r
  have hraw : ((r.head ++ body).drop (r.statusLine.length + 2)).take
      (r.statusLine.length + (fieldLines r.fields).length - r.statusLine.length) = fieldLines r.fields := by
    have hcrlf : crlf.length = 2 := rfl
    rw [head_eq, List.append_assoc, List.append_assoc, ← List.drop_drop, List.drop_left' rfl, List.drop_left' hcrlf,
      List.append_assoc, List.take_left' (by omega)]
  obtain ⟨hstart, hend⟩ := find_head h hne body
  rw [Pipe.receive, if_neg (by simp [hp])]
  dsimp only
  rw [hacc, hstart]
  dsimp only
  rw [hend]
  dsimp only
  rw [hraw, parseHeadersFromString_fieldLines (fun f hf => (h.fields f hf).readable), Option.bind_eq_bind,
    Option.bind_some, ← hhead]
  have hpos : 0 < (headerText order (rewrite filename (headersOf r.fields)) ++ crlf ++ raw.drop
    r.head.length).length := by
    rw [List.length_append, List.length_append, crlf_eq, List.length_cons]
    omega
  by_cases hlen : raw.length < r.head.length
  · rw [if_pos hlen, if_pos hlen]
  · rw [if_neg hlen, if_neg hlen, decide_eq_true hpos]

/-! ## Segments -/

lemma length_stream_lt (order : Headers → Headers) (filename : Bytes) (h : r.WellFormed) (hne : r.fields ≠ [])
    (hsegments : ∀ s ∈ segments, s ≠ []) (hp : p.first = true) (hsent : p.sent = [])
    (hacc : p.acc ≠ []) (htext : p.acc ++ segments.flatten = r.text) (hlen : p.acc.length < r.head.length) :
    (p.stream order filename segments).length < (r.piped order filename).length := by
  have hpiped : 0 < (r.piped order filename).length := by
    rw [Response.piped, List.length_append, List.length_append, crlf_eq, List.length_cons]
    omega
  induction segments generalizing p with
  | nil => rwa [Pipe.stream, hsent]
  | cons segment segments ih =>
    rw [List.forall_mem_cons] at hsegments
    rw [List.flatten_cons, ← List.append_assoc] at htext
    rw [Pipe.stream, if_neg hsegments.1]
    by_cases hshort : (p.acc ++ segment).length < r.head.length
    · rw [receive_of_short h hne hp ⟨_, htext⟩ hshort]
      exact ih (p := { p with acc := p.acc ++ segment }) hsegments.2 hp hsent
        (List.append_ne_nil_of_left_ne_nil hacc _) htext hshort
    · have hhead : r.head <+: p.acc ++ segment :=
        List.prefix_of_prefix_length_le (List.prefix_append _ r.body) ⟨_, htext⟩ (Nat.not_lt.1 hshort)
      obtain ⟨body, hbody⟩ := hhead
      rw [receive_of_long h hne hp _ hbody.symm]
      by_cases hthrow : segment.length < r.head.length
      · rw [if_pos hthrow]
        dsimp only
        rwa [hsent]
      · rw [if_neg hthrow]
        dsimp only
        rw [Pipe.stream_of_not_first rfl hsegments.2, hsent, Response.piped, List.nil_append, List.append_assoc,
          List.length_append, @List.length_append _ _ r.body, List.length_append, List.length_append,
          List.length_drop]
        have hlength := congrArg List.length htext
        rw [Response.text, List.length_append, List.length_append, List.length_append] at hlength
        have hpos := List.length_pos_iff.2 hacc
        omega

lemma pipeDownloadStream_ne (order : Headers → Headers) (filename : Bytes) (h : r.WellFormed) (hne : r.fields ≠ [])
    (hsegments : ∀ s ∈ segment :: segments, s ≠ []) (htext : segment ++ segments.flatten = r.text)
    (hshort : segment.length < r.head.length) :
    pipeDownloadStream order filename (segment :: segments) ≠ r.piped order filename := by
  rw [List.forall_mem_cons] at hsegments
  have hreceive : ({} : Pipe).receive order filename segment = some ({ acc := segment }, true) :=
    receive_of_short h hne rfl ⟨_, htext⟩ hshort
  have hlt := length_stream_lt order filename (p := { acc := segment }) h hne hsegments.2 rfl rfl hsegments.1
    htext hshort
  intro heq
  rw [pipeDownloadStream, Pipe.stream, if_neg hsegments.1, hreceive] at heq
  exact absurd (congrArg List.length heq) (Nat.ne_of_lt hlt)

/-- With headers the client gets the new ones and the whole body exactly if all of the headers are in the first
segment. -/
lemma pipeDownloadStream_iff_of_fields (order : Headers → Headers) (filename : Bytes) (h : r.WellFormed)
    (hne : r.fields ≠ []) (hsegments : ∀ s ∈ segments, s ≠ [])
    (htext : segments.flatten = r.text) :
    pipeDownloadStream order filename segments = r.piped order filename ↔ ∃ s ∈ segments.head?,
      r.head.length ≤ s.length := by
  have hhead := length_head r
  cases segments with
  | nil =>
    have hnil := congrArg List.length htext
    rw [Response.text, List.length_append, List.flatten_nil, List.length_nil] at hnil
    omega
  | cons segment segments =>
    rw [List.flatten_cons] at htext
    by_cases hshort : segment.length < r.head.length
    · refine iff_of_false (pipeDownloadStream_ne order filename h hne hsegments htext hshort) ?_
      · rintro ⟨s, hs, hle⟩
        obtain rfl := Option.some.inj hs
        omega
    · rw [List.forall_mem_cons] at hsegments
      refine iff_of_true ?_ ⟨segment, rfl, Nat.not_lt.1 hshort⟩
      have hpre : r.head <+: segment :=
        List.prefix_of_prefix_length_le (List.prefix_append _ r.body) ⟨_, htext⟩ (Nat.not_lt.1 hshort)
      obtain ⟨body, rfl⟩ := hpre
      rw [Response.text, List.append_assoc] at htext
      rw [pipeDownloadStream, Pipe.stream, if_neg hsegments.1, receive_of_long (p := {}) h hne rfl body (List.nil_append _),
        if_neg hshort]
      dsimp only
      rw [Pipe.stream_of_not_first rfl hsegments.2, List.drop_left' rfl, Response.piped,
        ← List.append_cancel_left htext]
      exact List.append_assoc _ body segments.flatten

/-! ## Responses without headers -/

/-- The first header begins with the end of the status line. -/
def Leads (headers : Headers) : Prop := ∃ key value values rest, headers = (13 :: key, value :: values) :: rest

lemma Leads.add {headers : Headers} (h : Leads headers) (key value : Bytes) : Leads (headers.add key value) := by
  obtain ⟨k, v, vs, rest, rfl⟩ := h
  rw [Headers.add]
  split
  · rename_i heq
    exact ⟨k, v, vs ++ [value], rest, by rw [← heq, List.cons_append]⟩
  · exact ⟨k, v, vs, _, rfl⟩

lemma Leads.set {headers : Headers} {key : Bytes} (h : Leads headers) (hkey : key.head? ≠ some 13) (value : Bytes) :
    Leads (headers.set key value) := by
  obtain ⟨k, v, vs, rest, rfl⟩ := h
  rw [Headers.set, if_neg (fun heq => hkey (by rw [← heq]; rfl))]
  exact ⟨k, v, vs, _, rfl⟩

lemma Leads.erase {headers : Headers} {key : Bytes} (h : Leads headers) (hkey : key.head? ≠ some 13) :
    Leads (headers.erase key) := by
  obtain ⟨k, v, vs, rest, rfl⟩ := h
  have hne : ((13 :: k) != key) = true := bne_iff_ne.2 fun heq => hkey (by rw [← heq]; rfl)
  rw [Headers.erase, List.filter_cons, if_pos hne]
  exact ⟨k, v, vs, _, rfl⟩

lemma Leads.rewrite {headers : Headers} (h : Leads headers) (filename : Bytes) :
    Leads (CppExperiments.Net.rewrite filename headers) :=
  (((h.erase (by decide)).set (by decide) _).set (by decide) _).set (by decide) _

lemma Leads.parseHeaderLines {headers headers' : Headers} {n : Nat} (h : Leads headers)
    (hparse : CppExperiments.Net.parseHeaderLines n headers raw = some headers') : Leads headers' := by
  induction n generalizing headers raw with
  | zero =>
    cases raw with
    | nil => exact Option.some.inj hparse ▸ h
    | cons b raw => cases hparse
  | succ n ih =>
    cases raw with
    | nil => exact Option.some.inj hparse ▸ h
    | cons b raw =>
      obtain ⟨pos1, -, hparse⟩ := Option.bind_eq_some_iff.1 hparse
      obtain ⟨pos2, -, hparse⟩ := Option.bind_eq_some_iff.1 hparse
      exact ih (h.add _ _) hparse

/-- What begins with a line end has a first header that does. -/
lemma leads_of_parse {headers : Headers} (hparse : parseHeadersFromString (13 :: raw) = some headers) :
    Leads headers := by
  rw [parseHeadersFromString, List.length_cons] at hparse
  obtain ⟨pos1, hpos1, hparse⟩ := Option.bind_eq_some_iff.1 hparse
  obtain ⟨pos2, -, hparse⟩ := Option.bind_eq_some_iff.1 hparse
  refine Leads.parseHeaderLines ?_ hparse
  have hpre : ¬ [58] <+: (13 : UInt8) :: raw := fun hp => absurd (List.cons_prefix_cons.1 hp).1 (by decide)
  rw [find_cons hpre] at hpos1
  obtain ⟨i, -, rfl⟩ := Option.map_eq_some_iff.1 hpos1
  have hlower : lower ((13 :: raw).take (i + 1)) = 13 :: lower (raw.take i) := rfl
  have hkey := List.rdropWhile_prefix (fun b : UInt8 => b == 32) (13 :: lower (raw.take i))
  rw [hlower, trimStr, List.dropWhile_cons_of_neg (by decide)]
  generalize hgen : (13 :: lower (raw.take i)).rdropWhile (fun b => b == 32) = key at hkey
  cases key with
  | nil => exact absurd (List.rdropWhile_eq_nil_iff.1 hgen 13 List.mem_cons_self) (by decide)
  | cons b key =>
    obtain ⟨rfl, -⟩ := List.cons_prefix_cons.1 hkey
    exact ⟨key, _, [], [], rfl⟩

/-- If anything is sent, then the headers are those at the first end of headers behind the first line. -/
lemma stream_of_first (hp : p.first = true) (hsent : p.sent = []) (hsegments : ∀ s ∈ segments, s ≠ []) :
    p.stream order filename segments = [] ∨ ∃ headerStart headerEnd headers rest,
      find crlf (p.acc ++ segments.flatten) = some headerStart ∧
      parseHeadersFromString (((p.acc ++ segments.flatten).drop (headerStart + 2)).take (headerEnd - headerStart)) =
        some headers ∧ headerStart + 2 ≤ headerEnd ∧
      p.stream order filename segments = headerText order (rewrite filename headers) ++ rest := by
  induction segments generalizing p with
  | nil =>
    rw [Pipe.stream]
    exact Or.inl hsent
  | cons segment segments ih =>
    rw [List.forall_mem_cons] at hsegments
    have ih' := ih (p := { p with acc := p.acc ++ segment }) hp hsent hsegments.2
    rw [List.flatten_cons, ← List.append_assoc, Pipe.stream, if_neg hsegments.1, Pipe.receive, if_neg (by simp [hp])]
    dsimp only at ih' ⊢
    generalize p.acc ++ segment = acc at ih' ⊢
    cases hstart : find crlf acc with
    | none => exact ih'
    | some headerStart =>
      dsimp only
      cases hend : findFrom crlfcrlf acc (headerStart + 2) with
      | none => exact ih'
      | some headerEnd =>
        dsimp only
        cases hparse : parseHeadersFromString ((acc.drop (headerStart + 2)).take (headerEnd - headerStart)) with
        | none => exact Or.inl hsent
        | some headers =>
          rw [Option.bind_eq_bind, Option.bind_some]
          by_cases hshort : segment.length < headerEnd + 4
          · rw [if_pos hshort]
            exact Or.inl hsent
          · have hsome : 0 < (headerText order (rewrite filename headers) ++ crlf ++ segment.drop
                (headerEnd + 4)).length := by
              rw [List.length_append, List.length_append, crlf_eq, List.length_cons]
              omega
            obtain ⟨j, hj, rfl⟩ := Option.map_eq_some_iff.1 hend
            have hcrlf : crlf.length = 2 := rfl
            have hcrlfcrlf : crlfcrlf.length = 4 := rfl
            have hlong := add_length_le_of_find hj (by decide)
            have hlen := add_length_le_of_find hstart (by decide)
            rw [List.length_drop] at hlong
            refine Or.inr ⟨headerStart, headerStart + 2 + j, headers, crlf ++ segment.drop (headerStart + 2 + j + 4) ++
              segments.flatten, find_append_right hstart _, ?_, Nat.le_add_right _ _, ?_⟩
            · rwa [List.drop_append_of_le_length (by omega), List.take_append_of_le_length (by
                rw [List.length_drop]
                omega)]
            · rw [if_neg hshort, decide_eq_true hsome]
              dsimp only
              rw [Pipe.stream_of_not_first rfl hsegments.2, hsent, List.nil_append, List.append_assoc,
                List.append_assoc, List.append_assoc]

/-- Without headers what is taken for them begins with the end of the status line. -/
lemma pipeDownloadStream_ne_of_no_fields (filename : Bytes) (h : r.WellFormed) (hnil : r.fields = [])
    (hsegments : ∀ s ∈ segments, s ≠ []) (htext : segments.flatten = r.text) :
    pipeDownloadStream id filename segments ≠ r.piped id filename := by
  have hhead : r.text = r.statusLine ++ (crlf ++ (crlf ++ r.body)) := by
    rw [Response.text, head_eq, hnil]
    simp [fieldLines]
  have hpiped : r.piped id filename = ascii "HTTP/1.1 200 OK" ++ crlf ++ (99 :: (r.piped id filename).drop 18) := by
    rw [Response.piped, hnil]
    rfl
  rw [pipeDownloadStream]
  intro heq
  rcases @stream_of_first id filename {} segments rfl rfl hsegments with hstream |
    ⟨headerStart, headerEnd, headers, rest, hstart, hparse, hle, hstream⟩
  · rw [hstream, hpiped] at heq
    cases heq
  · rw [List.nil_append, htext, hhead] at hstart hparse
    have hline : find crlf (r.statusLine ++ (crlf ++ (crlf ++ r.body))) = some r.statusLine.length :=
      (@findFrom_start [] r.statusLine h.statusLine (fun f hf => by cases hf) r.body).1
    obtain rfl := Option.some.inj (hline.symm.trans hstart)
    have hcrlf : crlf.length = 2 := rfl
    obtain ⟨n, hn⟩ := Nat.exists_eq_add_of_le hle
    have hfrom : headerEnd - r.statusLine.length = n + 1 + 1 := by omega
    rw [← List.drop_drop, List.drop_left' rfl, List.drop_left' hcrlf, hfrom, crlf_eq, List.cons_append,
      List.take_succ_cons] at hparse
    obtain ⟨key, value, values, others, hleads⟩ := (leads_of_parse hparse).rewrite filename
    rw [hstream, hleads, hpiped, headerText, id_eq, List.append_assoc] at heq
    have hbyte := List.append_cancel_left heq
    exact absurd (List.cons.inj hbyte).1 (by decide)


/-- The client gets the new headers and the whole body, in whatever order the headers are gone through, exactly if there
are headers and all of them are in the first segment. -/
theorem pipeDownloadStream_iff (filename : Bytes) (h : r.WellFormed) (hsegments : ∀ s ∈ segments, s ≠ [])
    (htext : segments.flatten = r.text) :
    (∀ order : Headers → Headers, (∀ headers, (order headers).Perm headers) →
      pipeDownloadStream order filename segments = r.piped order filename) ↔
    r.fields ≠ [] ∧ ∃ s ∈ segments.head?, r.head.length ≤ s.length := by
  by_cases hne : r.fields ≠ []
  · constructor
    · exact fun hall => ⟨hne, (pipeDownloadStream_iff_of_fields id filename h hne hsegments htext).1
        (hall id fun headers => List.Perm.refl headers)⟩
    · exact fun hfirst order _ => (pipeDownloadStream_iff_of_fields order filename h hne hsegments htext).2 hfirst.2
  · refine iff_of_false (fun hall => ?_) fun hfirst => hne hfirst.1
    exact pipeDownloadStream_ne_of_no_fields filename h (not_not.1 hne) hsegments htext
      (hall id fun headers => List.Perm.refl headers)

section Examples

def upstream : Response where
  statusLine := ascii "HTTP/1.1 200 OK"
  fields := [⟨ascii "Server", ascii " x"⟩]
  body := ascii "data"

lemma wellFormed_upstream : upstream.WellFormed := by
  have hname : (ascii "Server").all (fun b => decide (b ≠ 58 ∧ isSpace b = false)) = true := rfl
  refine ⟨by decide, ?_⟩
  simp only [upstream, List.forall_mem_cons]
  exact ⟨⟨by decide, forall_mem_of_all hname, by decide, by decide⟩, by simp⟩

theorem pipeDownloadStream_iff_upstream :
    (∀ order : Headers → Headers, (∀ headers, (order headers).Perm headers) →
      pipeDownloadStream order (ascii "f") [upstream.head ++ ascii "da", ascii "ta"] = upstream.piped order (ascii "f")) ↔
    upstream.fields ≠ [] ∧ ∃ s ∈ [upstream.head ++ ascii "da", ascii "ta"].head?, upstream.head.length ≤ s.length :=
  pipeDownloadStream_iff (ascii "f") wellFormed_upstream (by decide) rfl

/-- The headers come in two segments. -/
theorem pipeDownloadStream_ne_split : upstream.WellFormed ∧
    [upstream.head.take 20, upstream.text.drop 20].flatten = upstream.text ∧
      pipeDownloadStream id (ascii "f") [upstream.head.take 20, upstream.text.drop 20] ≠ upstream.piped id (ascii "f") :=
  ⟨wellFormed_upstream, rfl,
    pipeDownloadStream_ne id (ascii "f") wellFormed_upstream (List.cons_ne_nil _ _) (by decide) rfl (by decide)⟩

end Examples

end CppExperiments.Net
