import CppExperiments.Lib.Trimming
import CppExperiments.Net.Messages

/-!
# When a message is seen as complete

A message with a length is complete exactly when its body is; a message of chunks never is.
-/

namespace CppExperiments.Net

/-! ## Messages -/

/-- A chunk with the line in front of it. -/
structure Chunk where
  sizeLine : Bytes
  data : Bytes

namespace Chunk

/-- The size in hexadecimal digits, and extensions if there are any. -/
def WellFormed (c : Chunk) : Prop :=
  ∃ digits ext : Bytes, c.sizeLine = digits ++ ext ∧ digits ≠ [] ∧ (∀ b ∈ digits, isHexDigit b = true) ∧
    hexValue digits = c.data.length ∧ (∀ b ∈ ext.head?, b ∈ [59, 32, 9]) ∧ 13 ∉ ext

def text (c : Chunk) : Bytes := c.sizeLine ++ (crlf ++ (c.data ++ crlf))

end Chunk

/-- What is declared about the body. The last chunk is the empty one. -/
inductive Body where
  | none
  | length (content : Bytes)
  | chunked (chunks : List Chunk) (last : Chunk)

namespace Body

def text : Body → Bytes
  | none => []
  | length content => content
  | chunked chunks last => chunks.flatMap Chunk.text ++ last.text

def IsChunked : Body → Prop
  | none | length _ => False
  | chunked _ _ => True

end Body

/-- A decimal numeral with white space around it. -/
def IsLength (value : Bytes) (n : Nat) : Prop :=
  ∃ front digits rear : Bytes, value = front ++ (digits ++ rear) ∧ (∀ b ∈ front ++ rear, b = 32 ∨ b = 9) ∧ digits ≠ [] ∧
    digits.all isDigit = true ∧ digitsValue digits = n

structure Message where
  startLine : Bytes
  fields : List Field
  body : Body

namespace Message

def text (m : Message) : Bytes := m.startLine ++ (headerBlock m.fields ++ m.body.text)

/-- The body that the fields declare. -/
def Declares (fields : List Field) : Body → Prop
  | .none => ∀ f ∈ fields, f.key ≠ ascii "content-length" ∧ f.key ≠ ascii "transfer-encoding"
  | .length content => (∃ f ∈ fields, f.key = ascii "content-length") ∧
      ∀ f ∈ fields, f.key ≠ ascii "transfer-encoding" ∧ (f.key = ascii "content-length" → IsLength f.value content.length)
  | .chunked chunks last => (∃ f ∈ fields, f.key = ascii "transfer-encoding") ∧
      (∀ f ∈ fields, f.key ≠ ascii "content-length") ∧ (∀ c ∈ chunks, c.WellFormed ∧ c.data ≠ []) ∧ last.WellFormed ∧ last.data = []

structure WellFormed (m : Message) : Prop where
  startLine : 13 ∉ m.startLine
  fields : ∀ f ∈ m.fields, f.WellFormed
  declares : Declares m.fields m.body
  size : m.text.length < 2 ^ 64

/-- The whole message is complete, and nothing less is if there is a declaration. -/
def SeenExactly (m : Message) : Prop :=
  isCompleteHttpRequest m.text true = some true ∧
    (m.body ≠ .none → ∀ raw, raw <+: m.text → raw ≠ m.text → isCompleteHttpRequest raw true = some false)

end Message

variable {m : Message} {fields : List Field} {c last : Chunk} {chunks : List Chunk}
  {content body raw value rest : Bytes} {n : Nat}
  {all : Bool}

/-! ## Bodies with a length -/

lemma filter_key_ne_nil {key : Bytes} (h : ∃ f ∈ fields, f.key = key) : (fields.filter fun f => f.key == key) ≠ [] := by
  obtain ⟨f, hf, hkey⟩ := h
  exact List.ne_nil_of_mem (List.mem_filter.2 ⟨hf, beq_iff_eq.2 hkey⟩)

lemma filter_key_eq_nil {key : Bytes} (h : ∀ f ∈ fields, f.key ≠ key) : (fields.filter fun f => f.key == key) = [] := by
  rw [List.filter_eq_nil_iff]
  intro f hf
  simpa using h f hf

/-- Only some of the white space is taken off by trimming. -/
lemma exists_trimStr {front digits rear : Bytes} (hdigits : digits ≠ []) (hall : ∀ b ∈ digits, isDigit b = true)
    (hblank : ∀ b ∈ front ++ rear, b = 32 ∨ b = 9) : ∃ front' rear' : Bytes,
      trimStr (front ++ (digits ++ rear)) = front' ++ (digits ++ rear') ∧ (∀ b ∈ front', isSpace b = true) ∧
        ∀ b ∈ rear', isDigit b = false := by
  have hspace : ∀ b ∈ digits, (b == 32) = false := by
    intro b hb
    rw [beq_eq_false_iff_ne]
    rintro rfl
    exact absurd (hall 32 hb) (by decide)
  have hfront : (digits ++ rear).dropWhile (· == 32) = digits ++ rear := by
    refine dropWhile_eq_self_iff_head.2 fun b hb => hspace b ?_
    rw [List.head?_append_of_ne_nil _ hdigits] at hb
    exact List.mem_of_mem_head? hb
  have hrear : (front.dropWhile (· == 32) ++ digits).rdropWhile (· == 32) = front.dropWhile (· == 32) ++ digits := by
    rw [List.rdropWhile_eq_self_iff]
    intro hne
    rw [List.getLast_append_of_ne_nil _ hdigits, hspace _ (List.getLast_mem hdigits)]
    decide
  refine ⟨front.dropWhile (· == 32), rear.rdropWhile (· == 32), ?_, fun b hb => ?_, fun b hb => ?_⟩
  · rw [trimStr, dropWhile_append_of_self hfront, ← List.append_assoc, rdropWhile_append_of_self hrear,
      List.append_assoc]
  · rcases hblank b (List.mem_append_left _ ((List.dropWhile_suffix _).subset hb)) with rfl | rfl <;> rfl
  · rcases hblank b (List.mem_append_right _ ((List.rdropWhile_prefix _ _).subset hb)) with rfl | rfl <;> rfl

lemma takeWhile_append_of_all {α : Type*} {p : α → Bool} {xs ys : List α} (hxs : ∀ x ∈ xs, p x = true)
    (hys : ∀ y ∈ ys.head?, p y = false) : (xs ++ ys).takeWhile p = xs := by
  have hnil : ys.takeWhile p = [] := by
    cases ys with
    | nil => rfl
    | cons y ys => exact List.takeWhile_cons_of_neg (by rw [hys y rfl]; decide)
  rw [List.takeWhile_append_of_pos hxs, hnil, List.append_nil]

lemma stoull_of_isLength (h : IsLength value n) (hn : n < 2 ^ 64) : stoull (trimStr value) = some n := by
  obtain ⟨front, digits, rear, rfl, hblank, hdigits, hall, rfl⟩ := h
  rw [List.all_eq_true] at hall
  obtain ⟨front', rear', htrim, hfront', hrear'⟩ := exists_trimStr hdigits hall hblank
  have hhead : ∀ b ∈ (digits ++ rear').head?, isDigit b = true := by
    intro b hb
    rw [List.head?_append_of_ne_nil _ hdigits] at hb
    exact hall b (List.mem_of_mem_head? hb)
  have hdrop : (front' ++ (digits ++ rear')).dropWhile isSpace = digits ++ rear' := by
    rw [List.dropWhile_append_of_pos hfront']
    exact dropWhile_eq_self_iff_head.2 fun b hb => (not_isSpace_of_isDigit (hhead b hb)).1
  have hplus : (digits ++ rear').head? ≠ some 43 := fun hb => (not_isSpace_of_isDigit (hhead 43 hb)).2.1 rfl
  have hminus : (digits ++ rear').head? ≠ some 45 := fun hb => (not_isSpace_of_isDigit (hhead 45 hb)).2.2 rfl
  have htake : (digits ++ rear').takeWhile isDigit = digits :=
    takeWhile_append_of_all hall fun b hb => hrear' b (List.mem_of_mem_head? hb)
  have hmod : ((digitsValue digits : Int) % 2 ^ 64).toNat = digitsValue digits := by omega
  rw [htrim, stoull, integerPrefix, hdrop, if_neg hplus, signedPrefix, if_neg hminus, digitPrefix, htake,
    if_neg hdigits, Option.map_some, Option.filter_some,
    if_pos (by simpa using hn), Option.map_some, hmod]

/-- With a length the body is complete when it is as long. -/
lemma bodyComplete_length (h : Message.Declares fields (.length content)) (hsize : content.length < 2 ^ 64) :
    bodyComplete (headersOf fields) body all = some (decide (content.length ≤ body.length)) := by
  obtain ⟨hexists, hall⟩ := h
  have hne := filter_key_ne_nil hexists
  rw [bodyComplete, values_headersOf, if_neg hne]
  cases hfilter : fields.filter fun f => f.key == ascii "content-length" with
  | nil => exact absurd hfilter hne
  | cons f rest =>
    have hf : f ∈ fields.filter fun f => f.key == ascii "content-length" := hfilter ▸ List.mem_cons_self
    obtain ⟨hf, hkey⟩ := List.mem_filter.1 hf
    have hlength := stoull_of_isLength ((hall f hf).2 (beq_iff_eq.1 hkey)) hsize
    rw [List.map_cons]
    dsimp only
    rw [List.headD_cons, hlength]

lemma bodyComplete_none (h : Message.Declares fields .none) : bodyComplete (headersOf fields) body all = some true := by
  have hlength := filter_key_eq_nil fun f hf => (h f hf).1
  have hcoding := filter_key_eq_nil fun f hf => (h f hf).2
  rw [bodyComplete, values_headersOf, if_pos hlength]
  dsimp only
  rw [values_headersOf, if_pos hcoding]

/-! ## Bodies of chunks -/

lemma not_isSpace_of_isHexDigit {b : UInt8} (h : isHexDigit b = true) :
    isSpace b = false ∧ b ≠ 43 ∧ b ≠ 45 ∧ toLower b ≠ 120 := by
  have hnat := toNat_of_isHexDigit h
  have hne : ∀ c : UInt8, c.toNat < 48 → b ≠ c := by
    rintro c hc rfl
    omega
  refine ⟨?_, hne 43 (by decide), hne 45 (by decide), ?_⟩
  · have hle : ¬ b ≤ 13 := fun hle => by
      have hle' : b.toNat ≤ 13 := hle
      omega
    rw [isSpace, beq_eq_false_iff_ne.2 (hne 32 (by decide)), Bool.false_or]
    exact decide_eq_false fun hb => hle hb.2
  · rw [toLower]
    split
    · intro heq
      have hsum : (b.toNat + 32) % 256 = 120 := (UInt8.toNat_add b 32).symm.trans (congrArg UInt8.toNat heq)
      omega
    · rintro rfl
      have h120 : (120 : UInt8).toNat = 120 := rfl
      omega

lemma stoulHex_sizeLine (h : c.WellFormed) (hsize : c.data.length < 2 ^ 64) :
    stoulHex c.sizeLine = some c.data.length := by
  obtain ⟨digits, ext, heq, hdigits, hall, hvalue, hext, -⟩ := h
  have hhead : ∀ b ∈ (digits ++ ext).head?, isHexDigit b = true := by
    intro b hb
    rw [List.head?_append_of_ne_nil _ hdigits] at hb
    exact hall b (List.mem_of_mem_head? hb)
  have hdrop : (digits ++ ext).dropWhile isSpace = digits ++ ext :=
    dropWhile_eq_self_iff_head.2 fun b hb => (not_isSpace_of_isHexDigit (hhead b hb)).1
  have hplus : (digits ++ ext).head? ≠ some 43 := fun hb => (not_isSpace_of_isHexDigit (hhead 43 hb)).2.1 rfl
  have hminus : (digits ++ ext).head? ≠ some 45 := fun hb => (not_isSpace_of_isHexDigit (hhead 45 hb)).2.2.1 rfl
  have hbase : lower ((digits ++ ext).take 2) ≠ ascii "0x" := by
    have hmarks : ∀ b ∈ ([59, 32, 9] : Bytes), toLower b ≠ 120 := forall_mem_of_all rfl
    have hsecond : ∀ b ∈ (digits ++ ext).tail.head?, toLower b ≠ 120 := by
      intro b hb
      match digits, hdigits with
      | [_], _ => exact hmarks b (hext b hb)
      | _ :: e :: _, _ =>
        obtain rfl := Option.some.inj hb
        exact (not_isSpace_of_isHexDigit (hall e (List.mem_cons_of_mem _ List.mem_cons_self))).2.2.2
    intro hx
    cases hlist : digits ++ ext with
    | nil =>
      rw [hlist] at hx
      exact absurd hx (by decide)
    | cons d ds =>
      cases ds with
      | nil =>
        rw [hlist] at hx
        exact Nat.noConfusion (Nat.succ.inj (congrArg List.length hx))
      | cons e es =>
        rw [hlist] at hx hsecond
        exact hsecond e rfl (List.cons_eq_cons.1 (List.cons_eq_cons.1 hx).2).1
  have htake : (digits ++ ext).takeWhile isHexDigit = digits := by
    refine takeWhile_append_of_all hall fun b hb => ?_
    have hmarks : ∀ b ∈ ([59, 32, 9] : Bytes), isHexDigit b = false := forall_mem_of_all rfl
    exact hmarks b (hext b hb)
  have hfits : ¬ (digits = [] ∨ 2 ^ 64 ≤ c.data.length) := not_or.2 ⟨hdigits, Nat.not_le.2 hsize⟩
  have hbase' : ¬ (lower ((digits ++ ext).take 2) = ascii "0x" ∧ ((digits ++ ext).drop 2).head?.any isHexDigit = true) :=
    fun hx => hbase hx.1
  rw [heq, stoulHex, hdrop, if_neg (not_or.2 ⟨hplus, hminus⟩), if_neg hbase', htake, hvalue, if_neg hfits,
    beq_eq_false_iff_ne.2 hminus]
  rfl

lemma no_cr_sizeLine (h : c.WellFormed) : 13 ∉ c.sizeLine := by
  obtain ⟨digits, ext, heq, -, hdigits, -, -, hext⟩ := h
  rw [heq, List.mem_append, not_or]
  exact ⟨fun hmem => absurd (hdigits 13 hmem) (by decide), hext⟩

lemma find_chunk (h : c.WellFormed) (rest : Bytes) : find crlf (c.text ++ rest) = some c.sizeLine.length := by
  have hfind := @find_append [10] _ _ (no_cr_sizeLine h) (c.data ++ crlf ++ rest)
  rw [Chunk.text, crlf_eq] at *
  simpa using hfind

lemma length_chunk (c : Chunk) : c.text.length = c.sizeLine.length + 4 + c.data.length := by
  have hcrlf : crlf.length = 2 := rfl
  rw [Chunk.text, List.length_append, List.length_append, List.length_append]
  omega

/-- One round of the walk. -/
lemma walkChunks_succ (h : c.WellFormed) (hsize : (c.text ++ rest).length < 2 ^ 64) :
    walkChunks true (n + 1) (c.text ++ rest) =
    if rest = [] then some false else if c.data ≠ [] then walkChunks true n rest else some true := by
  have hlength := length_chunk c
  rw [List.length_append] at hsize
  have htake : (c.text ++ rest).take c.sizeLine.length = c.sizeLine := by
    rw [Chunk.text, List.append_assoc, List.take_left' rfl]
  have hmod : (c.sizeLine.length + 4 + c.data.length) % 2 ^ 64 = c.sizeLine.length + 4 + c.data.length :=
    Nat.mod_eq_of_lt (by omega)
  have hmod' : (c.sizeLine.length + c.data.length + 4) % 2 ^ 64 = c.sizeLine.length + 4 + c.data.length := by
    rw [← hmod]
    congr 1
    omega
  rw [walkChunks, find_chunk h]
  dsimp only
  rw [htake, stoulHex_sizeLine h (by omega)]
  dsimp only
  rw [hmod, hmod', List.length_append, List.drop_left' hlength]
  by_cases hrest : rest = []
  · rw [if_pos hrest, hrest, if_pos (by simp; omega)]
  · have hpos := List.length_pos_iff.2 hrest
    rw [if_neg hrest, if_neg (by omega)]
    by_cases hdata : c.data = []
    · rw [if_neg (by simp [hdata]), if_neg (by simp [hdata])]
    · rw [if_pos ⟨rfl, by simpa using hdata, hrest⟩, if_pos hdata]

/-- The walk over the chunks takes the last one for incomplete. -/
lemma walkChunks_ne_true (hchunks : ∀ c ∈ chunks, c.WellFormed ∧ c.data ≠ []) (hlast : last.WellFormed)
    (hsize : (chunks.flatMap Chunk.text ++ last.text).length < 2 ^ 64) :
    walkChunks true n (chunks.flatMap Chunk.text ++ last.text) ≠ some true := by
  induction chunks generalizing n with
  | nil =>
    cases n with
    | zero => exact Option.some_ne_none true ∘ Eq.symm
    | succ n =>
      have hround := @walkChunks_succ _ [] n hlast (by simpa using hsize)
      rw [List.append_nil, if_pos rfl] at hround
      rw [List.flatMap_nil, List.nil_append, hround]
      decide
  | cons c chunks ih =>
    rw [List.forall_mem_cons] at hchunks
    rw [List.flatMap_cons, List.append_assoc] at hsize ⊢
    cases n with
    | zero => exact Option.some_ne_none true ∘ Eq.symm
    | succ n =>
      have hne : chunks.flatMap Chunk.text ++ last.text ≠ [] := by
        have hlength := length_chunk last
        intro hnil
        rw [(List.append_eq_nil_iff.1 hnil).2, List.length_nil] at hlength
        omega
      rw [walkChunks_succ hchunks.1.1 hsize, if_neg hne, if_pos hchunks.1.2]
      refine ih hchunks.2 ?_
      rw [List.length_append] at hsize
      omega

lemma bodyComplete_chunked (h : Message.Declares fields (.chunked chunks last))
    (hsize : (Body.chunked chunks last).text.length < 2 ^ 64) :
    bodyComplete (headersOf fields) (Body.chunked chunks last).text true ≠ some true := by
  obtain ⟨hexists, hnone, hchunks, hlast, -⟩ := h
  rw [bodyComplete, values_headersOf, if_pos (filter_key_eq_nil hnone)]
  dsimp only
  rw [values_headersOf, if_neg (filter_key_ne_nil hexists)]
  exact walkChunks_ne_true hchunks hlast hsize

/-! ## Messages as they arrive -/

lemma size_body (h : m.WellFormed) : m.body.text.length < 2 ^ 64 := by
  have hsize := h.size
  rw [Message.text, List.length_append, List.length_append] at hsize
  omega

lemma not_seenExactly_of_chunked (h : m.WellFormed) (hchunked : m.body.IsChunked) : ¬ m.SeenExactly := by
  have hsize := size_body h
  have hdeclares := h.declares
  have hwhole : isCompleteHttpRequest m.text true = bodyComplete (headersOf m.fields) m.body.text true :=
    isCompleteHttpRequest_head h.startLine h.fields _
  intro hseen
  cases hbody : m.body with
  | none | length _ => exact absurd hchunked (hbody ▸ id)
  | chunked chunks last =>
    rw [hbody] at hwhole hdeclares hsize
    exact bodyComplete_chunked hdeclares hsize (hwhole.symm.trans hseen.1)

/-- A message is seen as complete exactly when it is, unless it comes in chunks. -/
theorem Message.seenExactly_iff (h : m.WellFormed) : m.SeenExactly ↔ ¬ m.body.IsChunked := by
  have hsize := size_body h
  have hwhole : isCompleteHttpRequest m.text true = bodyComplete (headersOf m.fields) m.body.text true :=
    isCompleteHttpRequest_head h.startLine h.fields _
  have hdeclares := h.declares
  cases hbody : m.body with
  | none =>
    rw [hbody] at hwhole hdeclares
    refine iff_of_true ⟨?_, fun hne => absurd hbody hne⟩ id
    rw [hwhole, bodyComplete_none hdeclares]
  | length content =>
    rw [hbody] at hwhole hdeclares hsize
    refine iff_of_true ⟨?_, fun _ raw hraw hne => ?_⟩ id
    · rw [hwhole, bodyComplete_length hdeclares hsize]
      exact congrArg some (decide_eq_true (Nat.le_refl _))
    · by_cases hlen : raw.length < m.startLine.length + (headerBlock m.fields).length
      · exact isCompleteHttpRequest_of_short h.startLine h.fields hraw hlen
      · have hhead : m.startLine ++ headerBlock m.fields <+: raw :=
          List.prefix_of_prefix_length_le ⟨m.body.text, by rw [Message.text, List.append_assoc]⟩ hraw
            (by rw [List.length_append]; omega)
        obtain ⟨body, rfl⟩ := hhead
        have hshort : body.length < content.length := by
          have hlt : (m.startLine ++ headerBlock m.fields ++ body).length < m.text.length :=
            Nat.lt_of_le_of_ne hraw.length_le fun heq => hne (hraw.eq_of_length heq)
          rw [Message.text, hbody, List.length_append, List.length_append, List.length_append,
            List.length_append] at hlt
          have htext : (Body.length content).text = content := rfl
          rw [htext] at hlt
          omega
        rw [List.append_assoc, isCompleteHttpRequest_head h.startLine h.fields, bodyComplete_length hdeclares hsize]
        exact congrArg some (decide_eq_false (Nat.not_le.2 hshort))
  | chunked chunks last =>
    have hchunked : m.body.IsChunked := by
      rw [hbody]
      trivial
    rw [← hbody]
    exact iff_of_false (not_seenExactly_of_chunked h hchunked) (not_not_intro hchunked)

section Examples

lemma wellFormed_field {name value : Bytes} (hne : name ≠ [])
    (hname : name.all (fun b => decide (b ≠ 58 ∧ isSpace b = false)) = true)
    (hcr : 13 ∉ value) (hlf : 10 ∉ value) : (Field.mk name value).WellFormed :=
  ⟨hne, forall_mem_of_all hname, hcr, hlf⟩

def posted : Message where
  startLine := ascii "POST / HTTP/1.1"
  fields := [⟨ascii "Host", ascii " a"⟩, ⟨ascii "Content-Length", ascii " 2\t"⟩]
  body := .length (ascii "ok")

lemma wellFormed_posted : posted.WellFormed := by
  have hfields : ∀ f ∈ posted.fields, f.WellFormed := by
    simp only [posted, List.forall_mem_cons]
    exact ⟨wellFormed_field (by decide) rfl (by decide) (by decide),
      wellFormed_field (by decide) rfl (by decide) (by decide), by simp⟩
  refine ⟨by decide, hfields, ⟨⟨_, List.mem_cons_of_mem _ List.mem_cons_self, by decide⟩, ?_⟩, by decide⟩
  have htwo : IsLength (ascii " 2\t") 2 := ⟨[32], [50], [9], rfl, forall_mem_of_all rfl, by decide, rfl, rfl⟩
  simp only [posted, List.forall_mem_cons]
  exact ⟨⟨by decide, fun h => absurd h (by decide)⟩, ⟨by decide, fun _ => htwo⟩, by simp⟩

theorem Message.seenExactly_iff_posted :
    posted.SeenExactly ↔ ¬ posted.body.IsChunked := seenExactly_iff wellFormed_posted

def chunkedReply : Message where
  startLine := ascii "HTTP/1.1 200 OK"
  fields := [⟨ascii "Transfer-Encoding", ascii " chunked"⟩]
  body := .chunked [⟨ascii "5", ascii "hello"⟩] ⟨ascii "0", []⟩

lemma wellFormed_chunk {digits data : Bytes} (hne : digits ≠ []) (hall : digits.all isHexDigit = true)
    (hvalue : hexValue digits = data.length) : (Chunk.mk digits data).WellFormed :=
  ⟨digits, [], by simp, hne, List.all_eq_true.1 hall, hvalue, by simp, by simp⟩

theorem not_seenExactly_chunkedReply : chunkedReply.WellFormed ∧ ¬ chunkedReply.SeenExactly := by
  have hwell : chunkedReply.WellFormed := by
    have hfields : ∀ f ∈ chunkedReply.fields, f.WellFormed := by
      simp only [chunkedReply, List.forall_mem_cons]
      exact ⟨wellFormed_field (by decide) rfl (by decide) (by decide), by simp⟩
    refine ⟨by decide, hfields, ⟨⟨_, List.mem_cons_self, by decide⟩, ?_, ?_, wellFormed_chunk (by decide) rfl rfl,
      rfl⟩, by decide⟩
    · simp only [chunkedReply, List.forall_mem_cons]
      exact ⟨by decide, by simp⟩
    · simp only [List.forall_mem_cons]
      exact ⟨⟨wellFormed_chunk (by decide) rfl rfl, by decide⟩, by simp⟩
  exact ⟨hwell, not_seenExactly_of_chunked hwell trivial⟩

end Examples

end CppExperiments.Net
