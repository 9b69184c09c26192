import CppExperiments.Lib.Search
import Mathlib.Data.List.DropRight

/-!
# HTTP messages on the wire

The header parser, and the test whether a message has been received as a whole.
-/

namespace CppExperiments.Net

/-! ## Headers -/

/-- Spaces are taken off both ends. -/
def trimStr (str : Bytes) : Bytes := (str.dropWhile (· == 32)).rdropWhile (· == 32)

/-- The first occurrence from a position on. -/
def findFrom (sub bs : Bytes) (pos : Nat) : Option Nat := (find sub (bs.drop pos)).map (pos + ·)

/-- The end of the headers. -/
def crlfcrlf : Bytes := [13, 10, 13, 10]

/-- The values of every key, in the order in which the keys were met first. -/
abbrev Headers := List (Bytes × List Bytes)

namespace Headers

def values (headers : Headers) (key : Bytes) : Option (List Bytes) := (headers.find? fun kv => kv.1 == key).map Prod.snd

/-- `headers[key].push_back(value)` -/
def add (headers : Headers) (key value : Bytes) : Headers :=
  match headers with
  | [] => [(key, [value])]
  | kv :: rest => if kv.1 = key then (key, kv.2 ++ [value]) :: rest else kv :: add rest key value

/-- `headers[key] = {value}` -/
def set (headers : Headers) (key value : Bytes) : Headers :=
  match headers with
  | [] => [(key, [value])]
  | kv :: rest => if kv.1 = key then (key, [value]) :: rest else kv :: set rest key value

def erase (headers : Headers) (key : Bytes) : Headers := headers.filter fun kv => kv.1 != key

end Headers

/-- The headers in a text of at most `n` lines behind those that are there; `none` where the code throws. -/
def parseHeaderLines : Nat → Headers → Bytes → Option Headers
  | _, headers, [] => some headers
  | 0, _, _ :: _ => none
  | n + 1, headers, headerRaw => do
    let pos1 ← find [58] headerRaw
    let pos2 ← findFrom crlf headerRaw (pos1 + 1)
    let key := trimStr (lower (headerRaw.take pos1))
    let value := trimStr ((headerRaw.drop (pos1 + 1)).take (pos2 - pos1 - 1))
    parseHeaderLines n (headers.add key value) (headerRaw.drop (pos2 + 2))

def parseHeadersFromString (headerRaw : Bytes) : Option Headers := parseHeaderLines headerRaw.length [] headerRaw

/-! ## Completeness -/

def hexDigit (b : UInt8) : Nat := if isDigit b then b.toNat - 48 else (toLower b).toNat - 87

def hexValue (bs : Bytes) : Nat := bs.foldl (fun acc b => 16 * acc + hexDigit b) 0

/-- `std::stoul` to the base 16; `none` where it throws. -/
def stoulHex (bs : Bytes) : Option Nat :=
  let bs := bs.dropWhile isSpace
  let negative := bs.head? == some 45
  let bs := if bs.head? = some 43 ∨ bs.head? = some 45 then bs.tail else bs
  let bs := if lower (bs.take 2) = ascii "0x" ∧ (bs.drop 2).head?.any isHexDigit = true then bs.drop 2 else bs
  let digits := bs.takeWhile isHexDigit
  if digits = [] ∨ 2 ^ 64 ≤ hexValue digits then none
  else some (if negative then (2 ^ 64 - hexValue digits) % 2 ^ 64 else hexValue digits)

/-- The walk over the chunks in at most `n` rounds; the sums are of 64 bits, and a walk without end has no result. -/
def walkChunks (allChunks : Bool) : Nat → Bytes → Option Bool
  | 0, _ => none
  | n + 1, body =>
    match find crlf body with
    | none => some false
    | some pos =>
      match stoulHex (body.take pos) with
      | none => some false
      | some chunkSize =>
        if body.length ≤ (pos + 4 + chunkSize) % 2 ^ 64 then some false
        else
          let body := body.drop ((pos + chunkSize + 4) % 2 ^ 64)
          if allChunks = true ∧ chunkSize ≠ 0 ∧ body ≠ [] then walkChunks allChunks n body else some true

/-- What the headers say about the end of the body. -/
def bodyComplete (headers : Headers) (body : Bytes) (allChunks : Bool) : Option Bool :=
  match headers.values (ascii "content-length") with
  | some lengths =>
    match stoull (lengths.headD []) with
    | some length => some (decide (length ≤ body.length))
    | none => some false
  | none =>
    match headers.values (ascii "transfer-encoding") with
    | some _ => walkChunks allChunks (body.length + 1) body
    | none => some true

/-- `none` where the code throws, or never returns. -/
def isCompleteHttpRequest (raw : Bytes) (allChunks : Bool) : Option Bool :=
  match find crlf raw with
  | none => some false
  | some headerEnd =>
    match findFrom crlfcrlf raw headerEnd with
    | none => some false
    | some pos => do
      let headers ← parseHeadersFromString ((raw.drop (headerEnd + 2)).take (pos - headerEnd))
      bodyComplete headers (raw.drop (pos + 4)) allChunks

end CppExperiments.Net

/-!
## Well-formed messages

A message from its start line, its header fields and its body, and where the parser finds the end of its headers.
-/

namespace CppExperiments.Net

/-! ## Fields -/

/-- A header field; the value has the white space around it. -/
structure Field where
  name : Bytes
  value : Bytes

namespace Field

structure WellFormed (f : Field) : Prop where
  nonempty : f.name ≠ []
  name : ∀ b ∈ f.name, b ≠ 58 ∧ isSpace b = false
  no_cr : 13 ∉ f.value
  no_lf : 10 ∉ f.value

def line (f : Field) : Bytes := f.name ++ 58 :: f.value

/-- The name as the parser keeps it. -/
def key (f : Field) : Bytes := lower f.name

/-- The parser finds the ends of the name and of the value, and keeps the whole name. -/
structure Readable (f : Field) : Prop where
  colon : 58 ∉ f.name
  trimmed : trimStr f.key = f.key
  no_cr : 13 ∉ f.value

/-- No empty line is seen in the name, or before it. -/
structure Whole (f : Field) : Prop where
  nonempty : f.name ≠ []
  start : ¬ crlf <+: f.name
  inside : ¬ crlfcrlf <:+: f.name

end Field

def fieldLines (fields : List Field) : Bytes := fields.flatMap fun f => f.line ++ crlf

/-- The header fields from the end of the start line on. -/
def headerBlock (fields : List Field) : Bytes := crlf ++ (fieldLines fields ++ crlf)

/-- What the fields should be read as. -/
def headersOf (fields : List Field) : Headers := fields.foldl (fun headers f => headers.add f.key (trimStr f.value)) []

variable {f : Field} {fields : List Field} {headers : Headers} {key key' value : Bytes} {start body raw rest : Bytes}
  {n : Nat}
  {all : Bool}

lemma toLower_eq_space_iff {b : UInt8} : toLower b = 32 ↔ b = 32 := by
  rw [toLower]
  by_cases hb : 65 ≤ b ∧ b ≤ 90
  · have hle : 65 ≤ b.toNat := hb.1
    have hle' : b.toNat ≤ 90 := hb.2
    rw [if_pos hb]
    constructor
    · intro h
      have hnat : (b.toNat + 32) % 256 = 32 := (UInt8.toNat_add b 32).symm.trans (congrArg UInt8.toNat h)
      omega
    · rintro rfl
      exact absurd hb.1 (by decide)
  · rw [if_neg hb]

lemma trimStr_of_notMem (h : 32 ∉ raw) : trimStr raw = raw := by
  have hne : ∀ b ∈ raw, ¬ (b == 32) = true := fun b hb hb32 => h (beq_iff_eq.1 hb32 ▸ hb)
  have hdrop : raw.dropWhile (· == 32) = raw := by
    cases raw with
    | nil => rfl
    | cons b bs => exact List.dropWhile_cons_of_neg (hne b List.mem_cons_self)
  rw [trimStr, hdrop, List.rdropWhile_eq_self_iff]
  exact fun hraw => hne _ (List.getLast_mem hraw)

lemma Field.WellFormed.readable (h : f.WellFormed) : f.Readable where
  colon hmem := (h.name 58 hmem).1 rfl
  trimmed := by
    refine trimStr_of_notMem fun hmem => ?_
    obtain ⟨b, hb, hlower⟩ := List.mem_map.1 hmem
    have hspace := (h.name b hb).2
    rw [toLower_eq_space_iff.1 hlower] at hspace
    exact absurd hspace (by decide)
  no_cr := h.no_cr

lemma Field.WellFormed.whole (h : f.WellFormed) : f.Whole where
  nonempty := h.nonempty
  start hstart := absurd (h.name 13 (hstart.subset List.mem_cons_self)).2 (by decide)
  inside hinside := absurd (h.name 13 (hinside.subset List.mem_cons_self)).2 (by decide)

lemma Field.WellFormed.not_cr (h : f.WellFormed) : 13 ∉ f.line := by
  intro hmem
  rcases List.mem_append.1 hmem with hmem | hmem
  · exact absurd (h.name 13 hmem).2 (by decide)
  · rcases List.mem_cons.1 hmem with heq | hmem
    · exact absurd heq (by decide)
    · exact h.no_cr hmem

/-! ## Reading the headers -/

lemma parseHeaderLines_cons (h : f.Readable) (headers : Headers) (rest : Bytes) :
    parseHeaderLines (n + 1) headers (f.line ++ crlf ++ rest) =
      parseHeaderLines n (headers.add f.key (trimStr f.value)) rest := by
  have hraw : f.line ++ crlf ++ rest = f.name ++ [58] ++ (f.value ++ crlf ++ rest) := by
    rw [Field.line]
    simp
  have hpos1 : find [58] (f.line ++ crlf ++ rest) = some f.name.length := by
    rw [hraw]
    exact find_append h.colon _
  have hdrop : (f.line ++ crlf ++ rest).drop (f.name.length + 1) = f.value ++ crlf ++ rest := by
    rw [hraw, List.drop_left' (by simp)]
  have hpos2 : findFrom crlf (f.line ++ crlf ++ rest) (f.name.length + 1) =
    some (f.name.length + 1 + f.value.length) := by
    rw [findFrom, hdrop]
    exact congrArg _ (find_append h.no_cr rest)
  have htake : (f.line ++ crlf ++ rest).take f.name.length = f.name := by
    rw [hraw, List.append_assoc, List.take_left' rfl]
  have hvalue : (f.value ++ crlf ++ rest).take (f.name.length + 1 + f.value.length - f.name.length - 1) = f.value := by
    rw [List.append_assoc, List.take_left' (by omega)]
  have hrest : (f.line ++ crlf ++ rest).drop (f.name.length + 1 + f.value.length + 2) = rest := by
    rw [Nat.add_assoc, ← List.drop_drop, hdrop, List.drop_left' (by rw [List.length_append]; rfl)]
  have hcons : ∃ b bs, f.line ++ crlf ++ rest = b :: bs := by
    cases hline : f.line ++ crlf ++ rest with
    | nil =>
      rw [hraw] at hline
      simp at hline
    | cons b bs => exact ⟨b, bs, rfl⟩
  obtain ⟨b, bs, hbs⟩ := hcons
  rw [hbs] at hpos1 hdrop hpos2 htake hrest ⊢
  rw [parseHeaderLines, hpos1, Option.bind_eq_bind, Option.bind_some, hpos2, Option.bind_some]
  · dsimp only
    rw [htake, hdrop, hvalue, hrest, ← Field.key, h.trimmed]
  · exact List.cons_ne_nil b bs

lemma parseHeaderLines_fieldLines (h : ∀ f ∈ fields, f.Readable) (hn : fields.length ≤ n) (headers : Headers) :
    parseHeaderLines n headers (fieldLines fields) =
      some (fields.foldl (fun headers f => headers.add f.key (trimStr f.value)) headers) := by
  induction fields generalizing n headers with
  | nil => cases n <;> rfl
  | cons f fields ih =>
    rw [List.forall_mem_cons] at h
    cases n with
    | zero => exact absurd hn (Nat.not_succ_le_zero _)
    | succ n =>
      rw [fieldLines, List.flatMap_cons, parseHeaderLines_cons h.1, ← fieldLines, ih h.2 (Nat.le_of_succ_le_succ hn)]
      rfl

lemma length_le_fieldLines (fields : List Field) : fields.length ≤ (fieldLines fields).length := by
  induction fields with
  | nil => rfl
  | cons f fields ih =>
    rw [fieldLines, List.flatMap_cons, ← fieldLines, List.length_append, List.length_append, List.length_cons]
    have hcrlf : crlf.length = 2 := rfl
    omega

/-- The parser reads the fields in their order. -/
theorem parseHeadersFromString_fieldLines (h : ∀ f ∈ fields, f.Readable) :
    parseHeadersFromString (fieldLines fields) = some (headersOf fields) :=
  parseHeaderLines_fieldLines h (length_le_fieldLines fields) []

namespace Headers

lemma values_cons (kv : Bytes × List Bytes) (headers : Headers) (key : Bytes) :
    values (kv :: headers) key = if kv.1 = key then some kv.2 else values headers key := by
  rw [values, List.find?_cons]
  by_cases hkv : kv.1 = key
  · rw [if_pos hkv, beq_iff_eq.2 hkv]
    rfl
  · rw [if_neg hkv, beq_eq_false_iff_ne.2 hkv]
    rfl

lemma values_add (headers : Headers) (key value key' : Bytes) : (headers.add key value).values key' =
    if key = key' then some ((headers.values key).getD [] ++ [value]) else headers.values key' := by
  induction headers with
  | nil => rw [add, values_cons]; rfl
  | cons kv headers ih =>
    rw [add, values_cons, values_cons]
    by_cases hkv : kv.1 = key
    · rw [if_pos hkv, values_cons, if_pos hkv, hkv]
      by_cases hkey : key = key'
      · rw [if_pos hkey, if_pos hkey]
        rfl
      · rw [if_neg hkey, if_neg hkey, if_neg hkey]
    · rw [if_neg hkv, values_cons, ih, if_neg hkv]
      by_cases hkey : key = key'
      · rw [if_pos hkey, if_pos hkey, if_neg (hkey ▸ hkv)]
      · rw [if_neg hkey, if_neg hkey]

end Headers

/-- The values of a key are those of all its fields. -/
lemma values_headersOf (fields : List Field) (key : Bytes) : (headersOf fields).values key =
    if (fields.filter fun f => f.key == key) = [] then none
    else some ((fields.filter fun f => f.key == key).map fun f => trimStr f.value) := by
  induction fields using List.reverseRecOn with
  | nil => rfl
  | append_singleton fields f ih =>
    rw [headersOf, List.foldl_append, ← headersOf, List.foldl_cons, List.foldl_nil, Headers.values_add,
      List.filter_append]
    by_cases hkey : f.key = key
    · have hf : ([f].filter fun f => f.key == key) = [f] := by simp [hkey]
      have hne : (fields.filter fun f => f.key == key) ++ [f] ≠ [] :=
        List.append_ne_nil_of_right_ne_nil _ (List.cons_ne_nil f [])
      rw [if_pos hkey, hkey, ih, hf, if_neg hne]
      by_cases hnil : (fields.filter fun f => f.key == key) = []
      · rw [if_pos hnil, hnil]
        rfl
      · rw [if_neg hnil, List.map_append]
        rfl
    · have hf : ([f].filter fun f => f.key == key) = [] := by simp [hkey]
      rw [if_neg hkey, ih, hf, List.append_nil]

/-! ## The end of the headers -/

lemma crlf_eq : crlf = [13, 10] := rfl

lemma length_headerBlock (fields : List Field) : (headerBlock fields).length = (fieldLines fields).length + 4 := by
  rw [headerBlock, List.length_append, List.length_append]
  have hcrlf : crlf.length = 2 := rfl
  omega

/-- No empty line begins in a field. -/
lemma Field.Whole.not_prefix_drop (h : f.Whole) (hcr : 13 ∉ f.value) {j : Nat} (hj : j < f.line.length) :
    ¬ crlfcrlf <+: (f.line ++ rest).drop j := by
  intro hp
  have hline : (f.line ++ rest).drop j = f.line.drop j ++ rest := List.drop_append_of_le_length hj.le
  rw [hline] at hp
  by_cases hname : j < f.name.length
  · have hdrop : f.line.drop j = f.name.drop j ++ 58 :: f.value := List.drop_append_of_le_length hname.le
    rw [hdrop, List.append_assoc] at hp
    by_cases hlength : (f.name.drop j).length < 4
    · obtain ⟨after, hafter⟩ := hp
      have hcolon : (f.name.drop j ++ (58 :: f.value ++ rest))[(f.name.drop j).length]? = some 58 := by
        rw [List.getElem?_append_right (Nat.le_refl _), Nat.sub_self]
        rfl
      rw [← hafter, List.getElem?_append_left hlength] at hcolon
      exact absurd (List.mem_of_getElem? hcolon) (by decide)
    · have hp' := List.prefix_of_prefix_length_le hp (List.prefix_append (f.name.drop j) _) (Nat.le_of_not_lt hlength)
      exact h.inside (hp'.isInfix.trans (List.drop_suffix j f.name).isInfix)
  · have hfirst : 13 ∈ (58 :: f.value).drop (j - f.name.length) := by
      have hdrop : f.line.drop j = (58 :: f.value).drop (j - f.name.length) := by
        rw [Field.line, List.drop_append, List.drop_eq_nil_of_le (Nat.le_of_not_lt hname), List.nil_append]
      rw [← hdrop]
      have hne : f.line.drop j ≠ [] := fun hnil => absurd (List.drop_eq_nil_iff.1 hnil) (Nat.not_le_of_lt hj)
      obtain ⟨c, cs, hcs⟩ := List.exists_cons_of_ne_nil hne
      rw [hcs, List.cons_append] at hp
      rw [hcs, ← (List.cons_prefix_cons.1 hp).1]
      exact List.mem_cons_self
    rcases List.mem_cons.1 (List.mem_of_mem_drop hfirst) with h13 | h13
    · exact absurd h13 (by decide)
    · exact hcr h13

/-- Two line ends come one behind the other only at the end of the headers. -/
lemma find_headerBlock_of_whole (h : ∀ f ∈ fields, f.Whole) (hcr : ∀ f ∈ fields, 13 ∉ f.value) :
    find crlfcrlf (headerBlock fields) = some (fieldLines fields).length := by
  induction fields with
  | nil => rfl
  | cons f fields ih =>
    rw [List.forall_mem_cons] at h hcr
    have hsplit : headerBlock (f :: fields) = 13 :: 10 :: (f.line ++ headerBlock fields) := by
      rw [headerBlock, headerBlock, fieldLines, List.flatMap_cons, ← fieldLines, crlf_eq]
      simp
    have hfirst : ¬ crlfcrlf <+: 13 :: 10 :: (f.line ++ headerBlock fields) := by
      intro hp
      have hp' : crlf <+: f.line ++ headerBlock fields := by
        rw [crlfcrlf, List.cons_prefix_cons, List.cons_prefix_cons] at hp
        exact hp.2.2
      obtain ⟨c, cs, hname⟩ := List.exists_cons_of_ne_nil h.1.nonempty
      cases cs with
      | nil =>
        rw [Field.line, hname, crlf_eq, List.append_assoc, List.singleton_append, List.cons_append,
          List.cons_prefix_cons, List.cons_prefix_cons] at hp'
        exact absurd hp'.2.1 (by decide)
      | cons c' cs =>
        rw [Field.line, List.append_assoc] at hp'
        refine h.1.start (List.prefix_of_prefix_length_le hp' (List.prefix_append f.name _) ?_)
        rw [hname]
        exact Nat.le_add_left _ _
    have hsecond : ∀ bs, ¬ crlfcrlf <+: 10 :: bs := fun bs hp => absurd (List.cons_prefix_cons.1 hp).1 (by decide)
    have hskip := @find_skip_of_ne crlfcrlf f.line (headerBlock fields) fun j hj => h.1.not_prefix_drop hcr.1 hj
    have hlines : (fieldLines (f :: fields)).length = f.line.length + 2 + (fieldLines fields).length := by
      rw [fieldLines, List.flatMap_cons, ← fieldLines, List.length_append, List.length_append, crlf_eq]
      rfl
    rw [hsplit, find_cons hfirst, find_cons (hsecond _), hskip, ih h.2 hcr.2, hlines]
    simp only [Option.map_some, Option.some.injEq]
    omega

lemma find_headerBlock (h : ∀ f ∈ fields, f.WellFormed) :
    find crlfcrlf (headerBlock fields) = some (fieldLines fields).length :=
  find_headerBlock_of_whole (fun f hf => (h f hf).whole) fun f hf => (h f hf).no_cr

lemma findFrom_start (hstart : 13 ∉ start) (h : ∀ f ∈ fields, f.WellFormed) (body : Bytes) :
    find crlf (start ++ (headerBlock fields ++ body)) = some start.length ∧
      findFrom crlfcrlf (start ++ (headerBlock fields ++ body)) start.length =
        some (start.length + (fieldLines fields).length) := by
  constructor
  · have hfind := @find_append [10] _ _ hstart (fieldLines fields ++ crlf ++ body)
    rw [headerBlock, List.append_assoc, ← List.append_assoc start, crlf_eq]
    exact hfind
  · rw [findFrom, List.drop_left' rfl, find_append_right (find_headerBlock h)]
    rfl

/-- Of a text with the whole headers the body decides. -/
theorem isCompleteHttpRequest_head (hstart : 13 ∉ start) (h : ∀ f ∈ fields, f.WellFormed) (body : Bytes) :
    isCompleteHttpRequest (start ++ (headerBlock fields ++ body)) all = bodyComplete (headersOf fields) body all := by
  obtain ⟨hfind, hend⟩ := findFrom_start hstart h body
  have hlength := length_headerBlock fields
  have hraw : ((start ++ (headerBlock fields ++ body)).drop (start.length + 2)).take
      (start.length + (fieldLines fields).length - start.length) = fieldLines fields := by
    have hcrlf : crlf.length = 2 := rfl
    rw [← List.drop_drop, List.drop_left' rfl, headerBlock, List.append_assoc, List.drop_left' hcrlf, List.append_assoc,
      List.take_left' (by omega)]
  have hbody : (start ++ (headerBlock fields ++ body)).drop (start.length + (fieldLines fields).length + 4) = body := by
    rw [Nat.add_assoc, ← List.drop_drop, List.drop_left' rfl, List.drop_left' hlength]
  rw [isCompleteHttpRequest, hfind]
  dsimp only
  rw [hend]
  dsimp only
  rw [hraw, hbody, parseHeadersFromString_fieldLines fun f hf => (h f hf).readable]
  rfl

/-- Without the whole headers a text is not complete. -/
theorem isCompleteHttpRequest_of_short (hstart : 13 ∉ start) (h : ∀ f ∈ fields, f.WellFormed)
    (hraw : raw <+: start ++ (headerBlock fields ++ body))
      (hlen : raw.length < start.length + (headerBlock fields).length) :
    isCompleteHttpRequest raw all = some false := by
  obtain ⟨rest, hrest⟩ := hraw
  rw [isCompleteHttpRequest]
  cases hfind : find crlf raw with
  | none => rfl
  | some headerEnd =>
    dsimp only
    have hfind' := find_append_right hfind rest
    rw [hrest, (findFrom_start hstart h body).1] at hfind'
    obtain rfl := Option.some.inj hfind'
    have hle := add_length_le_of_find hfind (by decide)
    have hend : findFrom crlfcrlf raw start.length = none := by
      rw [findFrom, Option.map_eq_none_iff, Option.eq_none_iff_forall_ne_some]
      intro i hi
      have hi' := find_append_right hi rest
      have hlong := add_length_le_of_find hi (by decide)
      rw [← List.drop_append_of_le_length (by omega), hrest, List.drop_left' rfl,
        find_append_right (find_headerBlock h)] at hi'
      have hcrlf : crlfcrlf.length = 4 := rfl
      have hblock := length_headerBlock fields
      rw [List.length_drop] at hlong
      have heq := Option.some.inj hi'
      omega
    rw [hend]

end CppExperiments.Net
