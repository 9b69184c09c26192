import CppExperiments.Redis.Resp

/-!
# Framing of requests

A request is the array of bulk strings that encodes its arguments. The server takes it as complete by
counting, so an argument that holds a dollar sign or a line end is not told from the frame around it.
-/

namespace CppExperiments.Redis

def encode (args : List Bytes) : Bytes := (RedisNode.aggregate (args.map .ofStr)).serialize

/-- The reads of a request: what each of them reports, and the buffer after the last. -/
def receive : Bytes → List Bytes → List Bool × Bytes
  | request, [] => ([], request)
  | request, chunk :: chunks =>
    let (complete, request) := readRequest request chunk
    let (flags, request) := receive request chunks
    (complete :: flags, request)

/-- A stream as it is cut into reads. -/
def Reads (stream : Bytes) (chunks : List Bytes) : Prop :=
  chunks.flatten = stream ∧ ∀ chunk ∈ chunks, chunk ≠ [] ∧ chunk.length ≤ 1024

instance (stream : Bytes) (chunks : List Bytes) : Decidable (Reads stream chunks) := by
  unfold Reads
  infer_instance

/-- The last read and no other reports the request complete, and the buffer then holds the arguments. -/
def Framed (args : List Bytes) (chunks : List Bytes) : Prop :=
  (receive [] chunks).1 = List.replicate (chunks.length - 1) false ++ [true] ∧
    ∃ nodes, deserialize (receive [] chunks).2 = .ok (.aggregate nodes) ∧
      nodes.map VariantRedisNode.value = args.map .str

/-- Neither a dollar sign nor a line end. -/
def Tame (arg : Bytes) : Prop := (36 : UInt8) ∉ arg ∧ ¬ SEP <:+: arg

instance (arg : Bytes) : Decidable (Tame arg) := by
  unfold Tame
  infer_instance

variable {args chunks : List Bytes} {request recvd post p : Bytes} {n : Nat}

/-- The elements of a request as they stand on the wire. -/
def body (args : List Bytes) : Bytes := (args.map VariantRedisNode.ofStr).flatMap VariantRedisNode.serialize

lemma encode_eq (args : List Bytes) : encode args = 42 :: (decimal args.length ++ SEP ++ body args) := by
  rw [encode, serialize_aggregate, List.length_map, body]

lemma body_cons (arg : Bytes) (args : List Bytes) :
    body (arg :: args) = (36 :: decimal arg.length) ++ 13 :: 10 :: (arg ++ 13 :: 10 :: body args) := by
  rw [body, List.map_cons, List.flatMap_cons, serialize_ofStr, bulkText, body]
  simp [SEP, crlf]

lemma not_sep_within {b : UInt8} (hb : b ≠ 13) (n : Nat) : ¬ [13, 10] <:+: b :: decimal n := by
  intro h
  have hm : (13 : UInt8) ∈ b :: decimal n := h.subset (by simp)
  rw [List.mem_cons] at hm
  exact hm.elim (fun h => hb h.symm) (not_mem_decimal (by decide) n)

/-- The line ends of a text, next to those of its frame. -/
def seps (bs : Bytes) : Nat := countSubstring bs SEP

def dollars (bs : Bytes) : Nat := countSubstring bs (ascii "$")

lemma dollars_eq (bs : Bytes) : dollars bs = bs.count 36 := countSubstring_singleton bs 36

lemma seps_line {b : UInt8} (hb : b ≠ 13) (n : Nat) (post : Bytes) :
    seps ((b :: decimal n) ++ 13 :: 10 :: post) = seps post + 1 := by
  rw [seps, SEP, crlf, countPair_append (by decide), (countPair_eq_zero_iff (by decide)).2 (not_sep_within hb n),
    Nat.zero_add]
  rfl

lemma seps_body (args : List Bytes) : seps (body args) = 2 * args.length + (args.map seps).sum := by
  induction args with
  | nil => exact countSubstring_nil _
  | cons arg args ih =>
    have harg : seps (arg ++ 13 :: 10 :: body args) = seps arg + seps (body args) + 1 :=
      countPair_append (by decide) arg (body args)
    rw [body_cons, seps_line (by decide), harg, ih, List.length_cons, List.map_cons, List.sum_cons]
    omega

/-- The line ends of a request: those of the frame, and those of the arguments. -/
theorem seps_encode (args : List Bytes) : seps (encode args) = 2 * args.length + 1 + (args.map seps).sum := by
  have h := seps_line (show (42 : UInt8) ≠ 13 by decide) args.length (body args)
  rw [encode_eq, ← List.cons_append, ← List.cons_append, List.append_assoc]
  rw [seps_body] at h
  exact h.trans (by omega)

lemma count_decimal (n : Nat) : (decimal n).count 36 = 0 := List.count_eq_zero.2 (not_mem_decimal (by decide) n)

lemma dollars_body (args : List Bytes) : dollars (body args) = args.length + (args.map dollars).sum := by
  induction args with
  | nil => exact countSubstring_nil _
  | cons arg args ih =>
    simp only [dollars_eq] at ih ⊢
    rw [body_cons, List.length_cons, List.map_cons, List.sum_cons]
    simp [dollars_eq arg, List.count_append, count_decimal, ih]
    omega

theorem dollars_encode (args : List Bytes) : dollars (encode args) = args.length + (args.map dollars).sum := by
  have h := dollars_body args
  rw [dollars_eq] at h ⊢
  rw [encode_eq]
  simp [List.count_append, count_decimal, SEP, crlf, h]

/-- An array whose header has arrived is judged by its counts. -/
theorem readRequest_array (hne : recvd ≠ []) (happ : request ++ recvd = 42 :: (decimal n ++ SEP ++ post))
    (hn : n < 2 ^ 63) :
    readRequest request recvd =
      if 2 * n + 1 < seps (request ++ recvd) ∨ n < dollars (request ++ recvd) then (true, invalidInp)
      else if seps (request ++ recvd) < 2 * n + 1 ∨ dollars (request ++ recvd) < n then (false, request ++ recvd)
      else (true, request ++ recvd) := by
  have hfind : find SEP (request ++ recvd) = some (1 + (decimal n).length) := by
    have h := findSep_header 42 (by decide) n post
    rw [← happ, findSep, List.drop_zero] at h
    simpa using h
  have hsign := header_sign 42 n post
  rw [← happ] at hsign
  have hsubstr := substr_header 42 n post
  rw [← happ] at hsubstr
  have hch : (request ++ recvd).getD 0 0 = 42 := by rw [happ]; rfl
  have hmod : (2 * n + 1) % 2 ^ 64 = 2 * n + 1 := Nat.mod_eq_of_lt (by omega)
  rw [readRequest, if_neg hne]
  simp only
  rw [hch, if_neg (by decide), if_neg (by decide), if_pos rfl, hfind]
  simp only
  rw [if_neg hsign, hsubstr, fromCharsSize_decimal (by omega)]
  simp only
  rw [hmod]
  rfl

/-- A header without its line end is not complete. -/
lemma readRequest_header (hne : recvd ≠ []) (hp : request ++ recvd <+: 42 :: (decimal n ++ [13])) :
    readRequest request recvd = (false, request ++ recvd) := by
  have hnot : (10 : UInt8) ∉ request ++ recvd := by
    intro hm
    have h := hp.subset hm
    rw [List.mem_cons, List.mem_append] at h
    exact h.elim (by decide) (fun h => h.elim (not_mem_decimal (by decide) n) (by decide))
  have hfind : find SEP (request ++ recvd) = none := find_eq_none (by decide : (10 : UInt8) ∈ SEP) hnot
  have hch : (request ++ recvd).getD 0 0 = 42 := by
    obtain ⟨post, hpost⟩ := hp
    cases happ : request ++ recvd with
    | nil => exact absurd (List.append_eq_nil_iff.1 happ).2 hne
    | cons b bs =>
      rw [happ, List.cons_append] at hpost
      exact (List.cons.inj hpost).1
  rw [readRequest, if_neg hne]
  simp only
  rw [hch, if_neg (by decide), if_neg (by decide), if_pos rfl, hfind]

lemma body_concat (args : List Bytes) (arg : Bytes) : ∃ bs, body (args ++ [arg]) = bs ++ [13] ++ [10] := by
  have h : body (args ++ [arg]) = body args ++ body [arg] := by simp [body]
  rw [h, body_cons]
  exact ⟨body args ++ (36 :: decimal arg.length) ++ 13 :: 10 :: arg, by simp [body]⟩

lemma encode_concat (hne : args ≠ []) : ∃ bs, encode args = bs ++ [13] ++ [10] := by
  obtain ⟨bs, hbs⟩ := body_concat args.dropLast (args.getLast hne)
  rw [List.dropLast_concat_getLast hne] at hbs
  rw [encode_eq, hbs]
  exact ⟨42 :: (decimal args.length ++ SEP ++ bs), by simp⟩

/-- A request that is cut short has less line ends than the whole. -/
lemma seps_lt (hne : args ≠ []) (hp : p <+: encode args) (hcut : p ≠ encode args) : seps p < seps (encode args) := by
  obtain ⟨bs, hbs⟩ := encode_concat hne
  rw [hbs] at hp hcut
  obtain ⟨cs, hcs⟩ := (List.prefix_concat_iff.1 hp).resolve_left hcut
  have hle : seps p ≤ seps (p ++ cs) := countPair_le_append 13 10 p cs
  have hcr : seps (bs ++ [13]) = seps bs := countPair_concat (by decide) bs
  have hall : seps (bs ++ [13] ++ [10]) = seps bs + seps [] + 1 := by
    rw [List.append_assoc]
    exact countPair_append (by decide) bs []
  rw [hcs, hcr] at hle
  rw [hbs, hall]
  omega

lemma dollars_le (hp : p <+: encode args) : dollars p ≤ dollars (encode args) := by
  rw [dollars_eq, dollars_eq]
  exact hp.sublist.count_le 36

/-- In a tame request the frame alone is counted. -/
lemma tame_iff (args : List Bytes) :
    (∀ arg ∈ args, Tame arg) ↔ seps (encode args) = 2 * args.length + 1 ∧ dollars (encode args) = args.length := by
  have hs : ∀ arg, seps arg = 0 ↔ ¬ SEP <:+: arg := fun arg => countPair_eq_zero_iff (by decide)
  have hd : ∀ arg, dollars arg = 0 ↔ (36 : UInt8) ∉ arg := fun arg => by rw [dollars_eq, List.count_eq_zero]
  have hsum : (∀ arg ∈ args, Tame arg) ↔ (args.map seps).sum = 0 ∧ (args.map dollars).sum = 0 := by
    simp only [List.sum_eq_zero_iff_forall_eq_nat, List.forall_mem_map, hs, hd, Tame]
    rw [← forall₂_and]
    exact forall₂_congr fun _ _ => and_comm
  rw [hsum, seps_encode, dollars_encode]
  omega

lemma length_args_lt (hlen : (encode args).length < 2 ^ 63) : args.length < 2 ^ 63 := by
  have h : dollars (encode args) ≤ (encode args).length := by
    rw [dollars_eq]
    exact List.count_le_length
  rw [dollars_encode] at h
  omega

/-- A tame request that is not there in full is not complete. -/
theorem readRequest_of_cut (hlen : (encode args).length < 2 ^ 63) (hne : args ≠ []) (htame : ∀ arg ∈ args, Tame arg)
    (hrecvd : recvd ≠ []) (hp : request ++ recvd <+: encode args) (hcut : request ++ recvd ≠ encode args) :
    readRequest request recvd = (false, request ++ recvd) := by
  have hseps := seps_lt hne hp hcut
  have hdollars := dollars_le hp
  rw [((tame_iff args).1 htame).1] at hseps
  rw [((tame_iff args).1 htame).2] at hdollars
  have hheader : 42 :: (decimal args.length ++ SEP) <+: encode args := by
    rw [encode_eq]
    exact ⟨body args, by simp⟩
  have harray : ∀ post, request ++ recvd = 42 :: (decimal args.length ++ SEP ++ post) →
      readRequest request recvd = (false, request ++ recvd) := by
    intro post hpost
    rw [readRequest_array hrecvd hpost (length_args_lt hlen), if_neg (by omega), if_pos (by omega)]
  rcases List.prefix_or_prefix_of_prefix hp hheader with h | ⟨post, hpost⟩
  · have hsplit : (42 :: (decimal args.length ++ SEP) : Bytes) = 42 :: (decimal args.length ++ [13]) ++ [10] := by
      simp [SEP, crlf]
    rw [hsplit, List.prefix_concat_iff] at h
    rcases h with h | h
    · exact harray [] (by rw [h]; simp [SEP, crlf])
    · exact readRequest_header hrecvd h
  · exact harray post hpost.symm

/-- A request that is there in full is complete if it is tame; else it is replaced. -/
theorem readRequest_of_eq (hlen : (encode args).length < 2 ^ 63) (hrecvd : recvd ≠ [])
    (happ : request ++ recvd = encode args) :
    readRequest request recvd = (true, if ∀ arg ∈ args, Tame arg then encode args else invalidInp) := by
  have hs := seps_encode args
  have hd := dollars_encode args
  rw [readRequest_array hrecvd (happ.trans (encode_eq args)) (length_args_lt hlen), happ]
  by_cases htame : ∀ arg ∈ args, Tame arg
  · have hcount := (tame_iff args).1 htame
    rw [if_pos htame, if_neg (by omega), if_neg (by omega)]
  · have hcount : ¬ (seps (encode args) = 2 * args.length + 1 ∧ dollars (encode args) = args.length) :=
      fun h => htame ((tame_iff args).2 h)
    rw [if_neg htame, if_pos (by omega)]

/-- A read that does not complete the request adds to it. -/
lemma readRequest_false (hrecvd : recvd ≠ []) (h : (readRequest request recvd).1 = false) :
    (readRequest request recvd).2 = request ++ recvd := by
  rw [readRequest, if_neg hrecvd] at h ⊢
  grind

/-- A tame request is complete with its last read, however it is cut. -/
theorem receive_of_tame (hlen : (encode args).length < 2 ^ 63) (hne : args ≠ []) (htame : ∀ arg ∈ args, Tame arg)
    (hchunks : chunks ≠ []) (hreads : ∀ chunk ∈ chunks, chunk ≠ []) (happ : request ++ chunks.flatten = encode args) :
    receive request chunks = (List.replicate (chunks.length - 1) false ++ [true], encode args) := by
  induction chunks generalizing request with
  | nil => exact absurd rfl hchunks
  | cons chunk chunks ih =>
    have hchunk : chunk ≠ [] := hreads chunk List.mem_cons_self
    rw [List.flatten_cons, ← List.append_assoc] at happ
    cases chunks with
    | nil =>
      rw [List.flatten_nil, List.append_nil] at happ
      rw [receive, readRequest_of_eq hlen hchunk happ, if_pos htame]
      rfl
    | cons next chunks =>
      have hnext : next ≠ [] := hreads next (List.mem_cons_of_mem chunk List.mem_cons_self)
      have hp : request ++ chunk <+: encode args := ⟨_, happ⟩
      have hcut : request ++ chunk ≠ encode args := by
        intro heq
        rw [← heq, List.append_right_eq_self, List.flatten_cons, List.append_eq_nil_iff] at happ
        exact hnext happ.1
      have hrest := ih (List.cons_ne_nil next chunks) (fun c hc => hreads c (List.mem_cons_of_mem chunk hc)) happ
      rw [receive, readRequest_of_cut hlen hne htame hchunk hp hcut]
      simp only
      rw [hrest]
      rfl

/-- Where only the last read completes the request, it has judged the whole of it. -/
theorem receive_of_last (hlen : (encode args).length < 2 ^ 63) (hreads : ∀ chunk ∈ chunks, chunk ≠ [])
    (happ : request ++ chunks.flatten = encode args)
    (hlast : (receive request chunks).1 = List.replicate (chunks.length - 1) false ++ [true]) :
    (receive request chunks).2 = if ∀ arg ∈ args, Tame arg then encode args else invalidInp := by
  induction chunks generalizing request with
  | nil => simp [receive] at hlast
  | cons chunk chunks ih =>
    have hchunk : chunk ≠ [] := hreads chunk List.mem_cons_self
    rw [List.flatten_cons, ← List.append_assoc] at happ
    cases chunks with
    | nil =>
      rw [List.flatten_nil, List.append_nil] at happ
      rw [receive, readRequest_of_eq hlen hchunk happ]
      rfl
    | cons next chunks =>
      rw [receive] at hlast ⊢
      simp only [List.length_cons, Nat.add_sub_cancel, List.replicate_succ, List.cons_append] at hlast ⊢
      have hflags := List.cons.inj hlast
      rw [readRequest_false hchunk hflags.1] at hflags ⊢
      exact ih (fun c hc => hreads c (List.mem_cons_of_mem chunk hc)) happ hflags.2

lemma deserialize_encode (hlen : (encode args).length < 2 ^ 63) :
    deserialize (encode args) = .ok (.aggregate ((args.map .ofStr).map VariantRedisNode.settled)) := by
  have hcount := length_args_lt hlen
  have hlong : (encode args).length < 2 ^ 64 := by omega
  apply deserialize_aggregate
  · intro n hn
    obtain ⟨arg, harg, rfl⟩ := List.mem_map.1 hn
    have hsub : (VariantRedisNode.ofStr arg).serialize <:+: encode args := by
      obtain ⟨pre, post, rfl⟩ := List.append_of_mem harg
      exact ⟨42 :: (decimal (pre ++ arg :: post).length ++ SEP ++ body pre), body post, by rw [encode_eq]; simp [body]⟩
    have hle := hsub.length_le
    rw [serialize_ofStr, length_bulkText rfl] at hle
    exact textual_ofStr (by omega)
  · rw [List.length_map]
    omega
  · exact hlong

lemma deserialize_invalidInp : deserialize invalidInp = .ok (.plain (ascii "Invalid input data") false) := by decide

/-- A request reaches the handler as it was sent exactly if none of its arguments holds a dollar sign
or a line end. -/
theorem framed_iff (hne : args ≠ []) (hlen : (encode args).length < 2 ^ 63) (hreads : Reads (encode args) chunks) :
    Framed args chunks ↔ ∀ arg ∈ args, Tame arg := by
  have hpieces : ∀ chunk ∈ chunks, chunk ≠ [] := fun chunk hc => (hreads.2 chunk hc).1
  have happ : [] ++ chunks.flatten = encode args := hreads.1
  constructor
  · rintro ⟨hlast, nodes, hnodes, _⟩
    by_contra htame
    rw [receive_of_last hlen hpieces happ hlast, if_neg htame, deserialize_invalidInp] at hnodes
    cases hnodes
  · intro htame
    have hchunks : chunks ≠ [] := by
      rintro rfl
      rw [encode_eq] at happ
      cases happ
    have h := receive_of_tame hlen hne htame hchunks hpieces happ
    refine ⟨by rw [h], _, by rw [h, deserialize_encode hlen], ?_⟩
    rw [List.map_map, List.map_map]
    rfl

/-- A PING that arrives in two reads. -/
theorem framed_iff_ping :
    Framed [ascii "PING"] [ascii "*1\r\n$4\r", ascii "\nPING\r\n"] ↔ ∀ arg ∈ [ascii "PING"], Tame arg :=
  framed_iff (by decide) (by decide) (by decide)

/-- ECHO with a dollar sign is reported complete as an invalid request. -/
theorem not_framed_echo_dollar :
    Reads (encode [ascii "ECHO", ascii "$"]) [encode [ascii "ECHO", ascii "$"]] ∧
      ¬ Framed [ascii "ECHO", ascii "$"] [encode [ascii "ECHO", ascii "$"]] := by
  refine ⟨by decide, ?_⟩
  rintro ⟨_, nodes, hnodes, _⟩
  have h : (receive [] [encode [ascii "ECHO", ascii "$"]]).2 = invalidInp := by decide
  rw [h, deserialize_invalidInp] at hnodes
  cases hnodes

end CppExperiments.Redis
