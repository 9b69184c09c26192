import CppExperiments.Net.Params
import CppExperiments.Net.Streaming
import Mathlib.Data.List.Nodup
import Mathlib.Logic.Relation

/-!
# Printed messages

Requests and responses are printed and parsed again. A response keeps its length header from the first time on, and a
request with a body gets another one each time.
-/

namespace CppExperiments.Net

/-! ## The code -/

structure HttpRequest where
  method : Bytes := ascii "GET"
  url : URL := {}
  headers : Headers := []
  body : Bytes := []

def printHeaders (headers : Headers) : Bytes :=
  headers.flatMap fun kv => kv.2.flatMap fun val => kv.1 ++ ascii ": " ++ val ++ crlf

def lengthHeader (body : Bytes) : Bytes := ascii "content-length: " ++ decimal body.length ++ crlf

namespace HttpRequest

/-- `toString`, with the headers in the order in which the map is gone through. -/
def toString (r : HttpRequest) (headers : Headers) : Bytes :=
  r.method ++ ascii " " ++ r.url.getPath ++ ascii " HTTP/1.1" ++ crlf ++ printHeaders headers ++
    if r.body ≠ [] then lengthHeader r.body ++ crlf ++ r.body else crlf

def fromString (raw : Bytes) : Option HttpRequest := do
  let (requestLine, headers, body) ← parseHttpString raw
  let pos1 ← find [32] requestLine
  let rest := (requestLine.drop (pos1 + 1)).dropWhile (· == 32)
  let pos2 ← find [32] rest
  let url ← URL.setPath {} (rest.take pos2)
  some ⟨requestLine.take pos1, url, headers, body⟩

end HttpRequest

/-- `HttpResponse::toString`, with the headers in the order in which the map is gone through. -/
def HttpResponse.toString (r : HttpResponse) (headers : Headers) : Bytes :=
  ascii "HTTP/1.1 " ++ decimalInt r.statusCode ++ crlf ++ printHeaders headers ++
    (if r.body ≠ [] ∧ r.headers.values (ascii "content-length") = none then lengthHeader r.body else []) ++ crlf ++ r.body

/-! ## Messages -/

/-- A name and values that the headers may hold. -/
structure Entry (key : Bytes) (values : List Bytes) : Prop where
  nonempty : key ≠ []
  lower : lower key = key
  colon : 58 ∉ key
  some_value : values ≠ []
  values : ∀ v ∈ values, trimStr v = v ∧ 13 ∉ v ∧ 10 ∉ v

structure Printable (headers : Headers) : Prop where
  keys : (headers.map Prod.fst).Nodup
  entries : ∀ kv ∈ headers, Entry kv.1 kv.2

/-- A name that is read back: no spaces are taken off, and no empty line is seen in it or before it. -/
def KeptName (key : Bytes) : Prop := trimStr key = key ∧ ¬ crlf <+: key ∧ ¬ crlfcrlf <:+: key

/-- The same values under each name. -/
def SameHeaders (headers headers' : Headers) : Prop := ∀ key, headers.values key = headers'.values key

/-- The same values, but for one more length header. -/
def LengthAdded (body : Bytes) (headers headers' : Headers) : Prop :=
  ∀ key, headers'.values key = if key = ascii "content-length" then
    some ((headers.values key).getD [] ++ [decimal body.length]) else headers.values key

structure HttpRequest.WellFormed (r : HttpRequest) : Prop where
  method : 32 ∉ r.method
  path : r.url.path.head? = some 47 ∧ 32 ∉ r.url.path ∧ 63 ∉ r.url.path
  params : ∃ pairs, r.url = URL.setParams { path := r.url.path } pairs
  headers : Printable r.headers

structure HttpResponse.WellFormed (r : HttpResponse) : Prop where
  status : 100 ≤ r.statusCode ∧ r.statusCode ≤ 999
  headers : Printable r.headers

/-- Messages that are printed and parsed: `text` prints one with its headers in some order, and `rest` is what it has
besides its headers and its body. -/
structure Wire (M R : Type) where
  text : M → Headers → Bytes
  parse : Bytes → Option M
  headers : M → Headers
  body : M → Bytes
  rest : M → R

def HttpRequest.wire : Wire HttpRequest (Bytes × URL) :=
    ⟨toString, fromString, headers, body, fun r => (r.method, r.url)⟩

def HttpResponse.wire : Wire HttpResponse Int :=
  ⟨toString, fromString, HttpResponse.headers, HttpResponse.body, statusCode⟩

namespace Wire

variable {M R : Type} (W : Wire M R)

/-- A text of a message, with its headers in any order. -/
def Prints (m : M) (raw : Bytes) : Prop := ∃ headers : Headers, headers.Perm (W.headers m) ∧ raw = W.text m headers

/-- One printing and parsing. -/
def Reprinted (m m' : M) : Prop := ∃ raw, W.Prints m raw ∧ W.parse raw = some m'

/-- The same message, but for the headers. -/
def SameRest (m m' : M) : Prop := W.rest m = W.rest m' ∧ W.body m = W.body m'

/-- However often a message is printed and parsed, it is read, and nothing changes. -/
def Stable (m : M) : Prop := ∀ m', Relation.ReflTransGen W.Reprinted m m' →
  W.SameRest m m' ∧ SameHeaders (W.headers m) (W.headers m') ∧ ∀ raw, W.Prints m' raw → (W.parse raw).isSome

/-- A message is read back up to an added length header, and what is read is then read back as it is. -/
def RoundTrips (m : M) : Prop := ∀ raw, W.Prints m raw → ∃ m', W.parse raw = some m' ∧ W.SameRest m m' ∧
  (SameHeaders (W.headers m) (W.headers m') ∨ LengthAdded (W.body m) (W.headers m) (W.headers m')) ∧ W.Stable m'

/-- Messages of a kind that are read back as they are, as messages of the kind, stay as they are. -/
lemma stable_of_kept {Good : M → Prop}
    (hstep : ∀ m raw, Good m → W.Prints m raw →
      ∃ m', W.parse raw = some m' ∧ Good m' ∧ W.SameRest m m' ∧ SameHeaders (W.headers m) (W.headers m'))
    {m : M} (h : Good m) : W.Stable m := by
  intro m' hrun
  have hall : Good m' ∧ W.SameRest m m' ∧ SameHeaders (W.headers m) (W.headers m') := by
    induction hrun with
    | refl => exact ⟨h, ⟨rfl, rfl⟩, fun _ => rfl⟩
    | tail _ hlast ih =>
      obtain ⟨hgood, hrest, hheaders⟩ := ih
      obtain ⟨raw, hraw, hparse⟩ := hlast
      obtain ⟨m'', hparse', hgood', hrest', hheaders'⟩ := hstep _ raw hgood hraw
      obtain rfl := Option.some.inj (hparse'.symm.trans hparse)
      exact ⟨hgood', ⟨hrest.1.trans hrest'.1, hrest.2.trans hrest'.2⟩, fun key => (hheaders key).trans (hheaders' key)⟩
  refine ⟨hall.2.1, hall.2.2, fun raw hraw => ?_⟩
  obtain ⟨m'', hparse, -⟩ := hstep m' raw hall.1 hraw
  exact Option.isSome_of_eq_some hparse

end Wire

/-! ## Printed headers -/

/-- The fields that headers are printed as. -/
def fieldsOf (headers : Headers) : List Field := headers.flatMap fun kv => kv.2.map fun val => ⟨kv.1, 32 :: val⟩

def lengthField (body : Bytes) : Field := ⟨ascii "content-length", 32 :: decimal body.length⟩

variable {headers headers' : Headers} {key first start body raw : Bytes} {f : Field} {fields : List Field}
  {values : List Bytes}

lemma fieldLines_fieldsOf (headers : Headers) : fieldLines (fieldsOf headers) = printHeaders headers := by
  have hline : ∀ key val : Bytes, Field.line ⟨key, 32 :: val⟩ ++ crlf = key ++ ascii ": " ++ val ++ crlf := by
    intro key val
    have hcolon : ascii ": " = [58, 32] := by decide
    rw [Field.line, hcolon]
    simp
  rw [fieldLines, fieldsOf, List.flatMap_assoc, printHeaders]
  congr 1
  funext kv
  rw [List.flatMap_map]
  congr 1
  funext val
  exact hline kv.1 val

lemma fieldLines_concat (fields : List Field) (f : Field) :
    fieldLines (fields ++ [f]) = fieldLines fields ++ (f.line ++ crlf) := by
  rw [fieldLines, List.flatMap_append, List.flatMap_singleton]
  rfl

lemma line_lengthField (body : Bytes) : (lengthField body).line ++ crlf = lengthHeader body := by
  have hname : ascii "content-length: " = ascii "content-length" ++ [58, 32] := by decide
  rw [lengthHeader, hname, Field.line, lengthField]
  simp

lemma trimStr_cons_space (bs : Bytes) : trimStr (32 :: bs) = trimStr bs := by
  rw [trimStr, List.dropWhile_cons_of_pos (by decide), ← trimStr]

lemma mem_fieldsOf : f ∈ fieldsOf headers ↔ ∃ kv ∈ headers, ∃ val ∈ kv.2, f = ⟨kv.1, 32 :: val⟩ := by
  rw [fieldsOf, List.mem_flatMap]
  constructor
  · rintro ⟨kv, hkv, hf⟩
    obtain ⟨val, hval, rfl⟩ := List.mem_map.1 hf
    exact ⟨kv, hkv, val, hval, rfl⟩
  · rintro ⟨kv, hkv, val, hval, rfl⟩
    exact ⟨kv, hkv, List.mem_map_of_mem hval⟩

/-- A field that is read as an entry. -/
structure Field.Plain (f : Field) : Prop where
  nonempty : f.name ≠ []
  lower : f.key = f.name
  colon : 58 ∉ f.name
  value : ∃ val, f.value = 32 :: val ∧ trimStr val = val ∧ 13 ∉ val ∧ 10 ∉ val

lemma Printable.plain (h : Printable headers) (hf : f ∈ fieldsOf headers) : f.Plain := by
  obtain ⟨kv, hkv, val, hval, rfl⟩ := mem_fieldsOf.1 hf
  have hentry := h.entries kv hkv
  have hvalue := hentry.values val hval
  exact ⟨hentry.nonempty, hentry.lower, hentry.colon, val, rfl, hvalue⟩

lemma Field.Plain.no_cr (h : f.Plain) : 13 ∉ f.value := by
  obtain ⟨val, hval, -, hcr, -⟩ := h.value
  rw [hval, List.mem_cons, not_or]
  exact ⟨by decide, hcr⟩

lemma Field.Plain.readable (h : f.Plain) (htrim : trimStr f.name = f.name) : f.Readable where
  colon := h.colon
  trimmed := by rw [h.lower, htrim]
  no_cr := h.no_cr

/-! ## Values that are read back -/

lemma values_headersOf_concat (fields : List Field) (f : Field) (key : Bytes) : (headersOf (fields ++ [f])).values key =
    if f.key = key then some (((headersOf fields).values f.key).getD [] ++ [trimStr f.value])
    else (headersOf fields).values key := by
  rw [headersOf, List.foldl_append, ← headersOf, List.foldl_cons, List.foldl_nil, Headers.values_add]

lemma values_eq_none (h : key ∉ headers.map Prod.fst) : headers.values key = none := by
  rw [Headers.values, Option.map_eq_none_iff, List.find?_eq_none]
  intro kv hkv heq
  exact h (List.mem_map.2 ⟨kv, hkv, beq_iff_eq.1 heq⟩)

lemma values_of_mem (hkeys : (headers.map Prod.fst).Nodup) (h : (key, values) ∈ headers) :
    headers.values key = some values := by
  induction headers with
  | nil => cases h
  | cons kv headers ih =>
    rw [List.map_cons, List.nodup_cons] at hkeys
    rw [Headers.values_cons]
    rcases List.mem_cons.1 h with rfl | h
    · rw [if_pos rfl]
    · have hne : kv.1 ≠ key := fun heq => hkeys.1 (heq ▸ List.mem_map_of_mem (f := Prod.fst) h)
      rw [if_neg hne, ih hkeys.2 h]

lemma mem_of_values (h : headers.values key = some values) : (key, values) ∈ headers := by
  obtain ⟨kv, hfind, rfl⟩ := Option.map_eq_some_iff.1 h
  have hkey := List.find?_some hfind
  rw [← beq_iff_eq.1 hkey]
  exact List.mem_of_find?_eq_some hfind

lemma values_perm (hkeys : (headers.map Prod.fst).Nodup) (h : headers'.Perm headers) (key : Bytes) :
    headers'.values key = headers.values key := by
  cases hvalues : headers.values key with
  | none =>
    refine values_eq_none fun hmem => ?_
    obtain ⟨kv, hkv, rfl⟩ := List.mem_map.1 hmem
    rw [values_of_mem hkeys (h.mem_iff.1 hkv)] at hvalues
    cases hvalues
  | some values =>
    exact values_of_mem ((h.map Prod.fst).nodup_iff.2 hkeys) (h.mem_iff.2 (mem_of_values hvalues))

lemma Printable.perm (h : Printable headers) (hperm : headers'.Perm headers) : Printable headers' :=
  ⟨(hperm.map Prod.fst).nodup_iff.2 h.keys, fun kv hkv => h.entries kv (hperm.mem_iff.1 hkv)⟩

lemma filter_fieldsOf_cons (kv : Bytes × List Bytes) (hlower : lower kv.1 = kv.1) (headers : Headers) (key : Bytes) :
    (fieldsOf (kv :: headers)).filter (fun f => f.key == key) =
      (if kv.1 = key then kv.2.map fun val => (⟨kv.1, 32 :: val⟩ : Field) else []) ++
        (fieldsOf headers).filter fun f => f.key == key := by
  have hkey : ∀ val, Field.key ⟨kv.1, 32 :: val⟩ = kv.1 := fun _ => hlower
  rw [fieldsOf, List.flatMap_cons, ← fieldsOf, List.filter_append, List.filter_map]
  by_cases h : kv.1 = key
  · rw [if_pos h, List.filter_eq_self.2]
    intro val _
    exact beq_iff_eq.2 ((hkey val).trans h)
  · rw [if_neg h, List.filter_eq_nil_iff.2, List.map_nil]
    intro val _ heq
    exact h ((hkey val).symm.trans (beq_iff_eq.1 heq))

/-- The values that are printed are read. -/
lemma values_fieldsOf (h : Printable headers) (key : Bytes) :
    (headersOf (fieldsOf headers)).values key = headers.values key := by
  rw [values_headersOf]
  induction headers with
  | nil => rfl
  | cons kv headers ih =>
    have hentry := h.entries kv List.mem_cons_self
    have hkeys := List.nodup_cons.1 (List.map_cons ▸ h.keys)
    have hrest : Printable headers := ⟨hkeys.2, fun kv' hkv' => h.entries kv' (List.mem_cons_of_mem kv hkv')⟩
    rw [filter_fieldsOf_cons kv hentry.lower, Headers.values_cons]
    by_cases hkey : kv.1 = key
    · have hnone : (fieldsOf headers).filter (fun f => f.key == key) = [] := by
        rw [List.filter_eq_nil_iff]
        intro f hf heq
        obtain ⟨kv', hkv', val, -, rfl⟩ := mem_fieldsOf.1 hf
        have hlower := (hrest.entries kv' hkv').lower
        have heq' : kv'.1 = key := hlower.symm.trans (beq_iff_eq.1 heq)
        exact hkeys.1 (List.mem_map.2 ⟨kv', hkv', heq'.trans hkey.symm⟩)
      have hsome : kv.2.map (fun val => (⟨kv.1, 32 :: val⟩ : Field)) ≠ [] := fun hnil =>
        hentry.some_value (List.map_eq_nil_iff.1 hnil)
      rw [if_pos hkey, if_pos hkey, hnone, List.append_nil, if_neg hsome, List.map_map]
      refine congrArg some ((List.map_congr_left fun val hval => ?_).trans (List.map_id kv.2))
      exact (trimStr_cons_space val).trans (hentry.values val hval).1
    · rw [if_neg hkey, if_neg hkey, List.nil_append, ih hrest]

/-! ## Headers that are read are printable -/

lemma Entry.add (h : Entry key values) (hkey : trimStr start = start ∧ 13 ∉ start ∧ 10 ∉ start) :
    Entry key (values ++ [start]) where
  nonempty := h.nonempty
  lower := h.lower
  colon := h.colon
  some_value := List.append_ne_nil_of_left_ne_nil h.some_value _
  values v hv := by
    rcases List.mem_append.1 hv with hv | hv
    · exact h.values v hv
    · rw [List.mem_singleton.1 hv]
      exact hkey

lemma Field.Plain.entry (h : f.Plain) : Entry f.key [trimStr f.value] where
  nonempty := h.lower ▸ h.nonempty
  lower := by rw [h.lower, ← Field.key, h.lower]
  colon := h.lower ▸ h.colon
  some_value := List.cons_ne_nil _ _
  values v hv := by
    obtain ⟨val, hval, htrim, hbytes⟩ := h.value
    rw [List.mem_singleton.1 hv, hval, trimStr_cons_space, htrim]
    exact ⟨htrim, hbytes⟩

lemma keys_add (headers : Headers) (key value : Bytes) : (headers.add key value).map Prod.fst =
    if key ∈ headers.map Prod.fst then headers.map Prod.fst else headers.map Prod.fst ++ [key] := by
  induction headers with
  | nil => rfl
  | cons kv headers ih =>
    rw [Headers.add, List.map_cons]
    by_cases hkv : kv.1 = key
    · rw [if_pos hkv, if_pos (hkv ▸ List.mem_cons_self), hkv]
      rfl
    · rw [if_neg hkv, List.map_cons, ih]
      have hiff : key ∈ kv.1 :: headers.map Prod.fst ↔ key ∈ headers.map Prod.fst := by
        rw [List.mem_cons, or_iff_right (Ne.symm hkv)]
      by_cases hmem : key ∈ headers.map Prod.fst
      · rw [if_pos hmem, if_pos (hiff.2 hmem)]
      · rw [if_neg hmem, if_neg (hiff.not.2 hmem)]
        rfl

lemma mem_add (h : (key, values) ∈ headers.add first start) :
    (key, values) ∈ headers ∨ key = first ∧
      (values = [start] ∨ ∃ old, (key, old) ∈ headers ∧ values = old ++ [start]) := by
  induction headers with
  | nil =>
    rw [Headers.add, List.mem_singleton, Prod.mk.injEq] at h
    exact .inr ⟨h.1, .inl h.2⟩
  | cons kv headers ih =>
    rw [Headers.add] at h
    by_cases hkv : kv.1 = first
    · rw [if_pos hkv, List.mem_cons, Prod.mk.injEq] at h
      rcases h with ⟨rfl, rfl⟩ | h
      · exact .inr ⟨rfl, .inr ⟨kv.2, hkv ▸ List.mem_cons_self, rfl⟩⟩
      · exact .inl (List.mem_cons_of_mem kv h)
    · rw [if_neg hkv, List.mem_cons] at h
      rcases h with rfl | h
      · exact .inl List.mem_cons_self
      · rcases ih h with h | ⟨hkey, h | ⟨old, hold, rfl⟩⟩
        · exact .inl (List.mem_cons_of_mem kv h)
        · exact .inr ⟨hkey, .inl h⟩
        · exact .inr ⟨hkey, .inr ⟨old, List.mem_cons_of_mem kv hold, rfl⟩⟩

/-- Every name is the name of a field. -/
lemma mem_keys_headersOf (h : key ∈ (headersOf fields).map Prod.fst) : ∃ f ∈ fields, f.key = key := by
  induction fields using List.reverseRecOn with
  | nil => cases h
  | append_singleton fields f ih =>
    rw [headersOf, List.foldl_append, ← headersOf, List.foldl_cons, List.foldl_nil, keys_add] at h
    by_cases hmem : f.key ∈ (headersOf fields).map Prod.fst
    · rw [if_pos hmem] at h
      obtain ⟨f', hf', heq⟩ := ih h
      exact ⟨f', List.mem_append_left _ hf', heq⟩
    · rw [if_neg hmem, List.mem_append, List.mem_singleton] at h
      rcases h with h | rfl
      · obtain ⟨f', hf', heq⟩ := ih h
        exact ⟨f', List.mem_append_left _ hf', heq⟩
      · exact ⟨f, List.mem_append_right _ List.mem_cons_self, rfl⟩

lemma printable_headersOf (h : ∀ f ∈ fields, f.Plain) : Printable (headersOf fields) := by
  induction fields using List.reverseRecOn with
  | nil => exact ⟨List.nodup_nil, nofun⟩
  | append_singleton fields f ih =>
    obtain ⟨hkeys, hentries⟩ := ih fun f' hf' => h f' (List.mem_append_left _ hf')
    have hf := (h f (List.mem_append_right _ List.mem_cons_self)).entry
    rw [headersOf, List.foldl_append, ← headersOf, List.foldl_cons, List.foldl_nil]
    constructor
    · rw [keys_add]
      by_cases hmem : f.key ∈ (headersOf fields).map Prod.fst
      · rwa [if_pos hmem]
      · rw [if_neg hmem, ← List.concat_eq_append]
        exact List.Nodup.concat hmem hkeys
    · rintro ⟨key, values⟩ hkv
      rcases mem_add hkv with hkv | ⟨rfl, rfl | ⟨old, hold, rfl⟩⟩
      · exact hentries _ hkv
      · exact hf
      · exact (hentries _ hold).add (hf.values _ List.mem_cons_self)

/-! ## Where the parts are found -/

/-- A start line: it holds no line end, and none begins at its last byte. -/
structure StartLine (start : Bytes) : Prop where
  inside : ¬ crlf <:+: start
  last : start.getLast? ≠ some 13

lemma StartLine.not_prefix_drop (h : StartLine start) (rest : Bytes) {j : Nat} (hj : j < start.length) :
    ¬ crlf <+: (start ++ rest).drop j := by
  intro hp
  rw [List.drop_append_of_le_length hj.le] at hp
  by_cases hlength : (start.drop j).length < 2
  · rw [List.length_drop] at hlength
    have hlast := List.drop_eq_getElem_cons hj
    rw [List.drop_eq_nil_of_le (by omega : start.length ≤ j + 1)] at hlast
    rw [hlast, crlf, List.singleton_append, List.cons_prefix_cons] at hp
    refine h.last ?_
    rw [List.getLast?_eq_getElem?, hp.1, show start.length - 1 = j by omega]
    exact List.getElem?_eq_getElem hj
  · have hp' := List.prefix_of_prefix_length_le hp (List.prefix_append _ _) (Nat.le_of_not_lt hlength)
    exact h.inside (hp'.isInfix.trans (List.drop_suffix j start).isInfix)

lemma find_start (h : StartLine start) (rest : Bytes) : find crlf (start ++ (crlf ++ rest)) = some start.length := by
  have hskip := @find_skip_of_ne crlf start (crlf ++ rest) fun j hj => h.not_prefix_drop (crlf ++ rest) hj
  rw [hskip, find_of_start (by decide) (List.prefix_append _ _), Option.map_some, Nat.zero_add]

lemma raw_headerBlock (fields : List Field) (body : Bytes) :
    start ++ (headerBlock fields ++ body) = start ++ (crlf ++ (fieldLines fields ++ crlf ++ body)) := by
  rw [headerBlock, List.append_assoc]

/-- A printed message is read in its parts. -/
lemma parseHttpString_headerBlock (hstart : StartLine start) (hread : ∀ f ∈ fields, f.Readable)
    (hwhole : ∀ f ∈ fields, f.Whole) (body : Bytes) :
    parseHttpString (start ++ (headerBlock fields ++ body)) = some (trimStr start, headersOf fields, body) := by
  have hpos1 : find crlf (start ++ (headerBlock fields ++ body)) = some start.length := by
    rw [raw_headerBlock]
    exact find_start hstart _
  have hblock := find_headerBlock_of_whole hwhole fun f hf => (hread f hf).no_cr
  have hpos2 : findFrom crlfcrlf (start ++ (headerBlock fields ++ body)) start.length =
      some (start.length + (fieldLines fields).length) := by
    rw [findFrom, List.drop_left' rfl, find_append_right hblock]
    rfl
  have hcrlf : crlf.length = 2 := rfl
  have hlines : ((start ++ (headerBlock fields ++ body)).drop (start.length + 2)).take
      (start.length + (fieldLines fields).length - start.length) = fieldLines fields := by
    rw [raw_headerBlock, ← List.drop_drop, List.drop_left' rfl, List.drop_left' hcrlf, List.append_assoc,
      List.take_left' (by omega)]
  have hbody : (start ++ (headerBlock fields ++ body)).drop (start.length + (fieldLines fields).length + 4) = body := by
    rw [Nat.add_assoc, ← List.drop_drop, List.drop_left' rfl, List.drop_left' (length_headerBlock fields)]
  rw [parseHttpString, hpos1, Option.bind_eq_bind, Option.bind_some, hpos2, Option.bind_eq_bind, Option.bind_some,
    hlines,
    parseHeadersFromString_fieldLines hread, Option.bind_some, hbody, List.take_left' rfl]

/-! ## Trimmed texts -/

lemma head?_trimStr (raw : Bytes) : (trimStr raw).head? ≠ some 32 := by
  intro hhead
  have hdrop := List.head?_dropWhile_not (· == 32) raw
  have hhead' : (raw.dropWhile (· == 32)).head? = some 32 := by
    obtain ⟨bs, hbs⟩ := List.rdropWhile_prefix (· == 32) (raw.dropWhile (· == 32))
    rw [← hbs, List.head?_append, ← trimStr, hhead]
    rfl
  rw [hhead'] at hdrop
  exact absurd hdrop (by decide)

lemma trimStr_of_ends (hhead : raw.head? ≠ some 32) (hlast : raw.getLast? ≠ some 32) : trimStr raw = raw := by
  have hdrop : raw.dropWhile (· == 32) = raw := by
    cases raw with
    | nil => rfl
    | cons b bs => exact List.dropWhile_cons_of_neg fun hb => hhead (congrArg some (beq_iff_eq.1 hb))
  rw [trimStr, hdrop, List.rdropWhile_eq_self_iff]
  exact fun hne hb => hlast ((List.getLast?_eq_getLast_of_ne_nil hne).trans (congrArg some (beq_iff_eq.1 hb)))

lemma trimStr_trimStr (raw : Bytes) : trimStr (trimStr raw) = trimStr raw := by
  refine trimStr_of_ends (head?_trimStr raw) fun hlast => ?_
  have hne : trimStr raw ≠ [] := fun hnil => by
    rw [hnil] at hlast
    cases hlast
  have hkeep := List.rdropWhile_last_not (· == 32) (raw.dropWhile (· == 32)) hne
  rw [List.getLast?_eq_getLast_of_ne_nil hne] at hlast
  exact hkeep (beq_iff_eq.2 (Option.some.inj hlast))

/-! ## What a parse says of the text -/

lemma trimmed_of_mem_keys {n : Nat} (h : parseHeaderLines n headers raw = some headers')
    (htrim : ∀ key ∈ headers.map Prod.fst, trimStr key = key) :
    ∀ key ∈ headers'.map Prod.fst, trimStr key = key := by
  induction n generalizing headers raw with
  | zero =>
    cases raw with
    | nil =>
      rw [parseHeaderLines, Option.some.injEq] at h
      exact h ▸ htrim
    | cons b bs => cases h
  | succ n ih =>
    cases raw with
    | nil =>
      rw [parseHeaderLines, Option.some.injEq] at h
      exact h ▸ htrim
    | cons b bs =>
      rw [parseHeaderLines] at h
      · obtain ⟨pos1, -, h⟩ := Option.bind_eq_some_iff.1 h
        obtain ⟨pos2, -, h⟩ := Option.bind_eq_some_iff.1 h
        refine ih h fun key hmem => ?_
        rw [keys_add] at hmem
        split_ifs at hmem with hold
        · exact htrim key hmem
        · rcases List.mem_append.1 hmem with hmem | hmem
          · exact htrim key hmem
          · rw [List.mem_singleton.1 hmem]
            exact trimStr_trimStr _
      · exact List.cons_ne_nil b bs

lemma eq_of_parseHttpString (h : parseHttpString raw = some (first, headers, body)) :
    ∃ pos1 pos2, find crlf raw = some pos1 ∧ findFrom crlfcrlf raw pos1 = some pos2 ∧
      first = trimStr (raw.take pos1) ∧ body = raw.drop (pos2 + 4) ∧
        ∀ key ∈ headers.map Prod.fst, trimStr key = key := by
  obtain ⟨pos1, hpos1, h⟩ := Option.bind_eq_some_iff.1 h
  obtain ⟨pos2, hpos2, h⟩ := Option.bind_eq_some_iff.1 h
  obtain ⟨headers', hheaders, h⟩ := Option.bind_eq_some_iff.1 h
  rw [Option.some.injEq, Prod.mk.injEq, Prod.mk.injEq] at h
  obtain ⟨hfirst, rfl, hbody⟩ := h
  exact ⟨pos1, pos2, hpos1, hpos2, hfirst.symm, hbody.symm, trimmed_of_mem_keys hheaders nofun⟩

lemma trimStr_isInfix (raw : Bytes) : trimStr raw <:+: raw :=
  (List.rdropWhile_prefix _ _).isInfix.trans (List.dropWhile_suffix _).isInfix

/-- The start line that is read holds no line end. -/
lemma not_infix_of_parseHttpString (h : parseHttpString raw = some (first, headers, body)) : ¬ crlf <:+: first := by
  obtain ⟨pos1, pos2, hpos1, -, rfl, -⟩ := eq_of_parseHttpString h
  intro hinside
  obtain ⟨front, rear, hfront⟩ := hinside.trans (trimStr_isInfix _)
  have hprefix : crlf <+: raw.drop front.length := by
    rw [← List.take_append_drop pos1 raw, ← hfront, List.append_assoc, List.append_assoc, List.drop_left' rfl]
    exact List.prefix_append _ _
  have hle := le_of_find hpos1 hprefix
  have hlength := congrArg List.length hfront
  have hcrlf : crlf.length = 2 := rfl
  rw [List.length_append, List.length_append, List.length_take] at hlength
  omega

lemma exists_front (fields : List Field) :
    ∃ front, crlf ++ fieldLines fields = front ++ crlf ∧ front.length = (fieldLines fields).length := by
  induction fields using List.reverseRecOn with
  | nil => exact ⟨[], List.append_nil _, rfl⟩
  | append_singleton fields f _ =>
    have hcrlf : crlf.length = 2 := rfl
    refine ⟨crlf ++ (fieldLines fields ++ f.line), ?_, ?_⟩
    · rw [fieldLines_concat, List.append_assoc, List.append_assoc]
    · rw [fieldLines_concat, List.length_append, List.length_append, List.length_append, List.length_append]
      omega

/-- When the whole body is read, no empty line was seen before it. -/
lemma whole_of_parse (hname : ∀ f ∈ fields, f.name ≠ [])
    (h : parseHttpString (start ++ (headerBlock fields ++ body)) = some (first, headers, body)) :
    ∀ f ∈ fields, f.Whole := by
  obtain ⟨pos1, pos2, hpos1, hpos2, -, hbody, -⟩ := eq_of_parseHttpString h
  obtain ⟨i, hi, rfl⟩ := Option.map_eq_some_iff.1 hpos2
  have hlengths := congrArg List.length hbody
  have hpos := add_length_le_of_find hi (by decide)
  have hcrlf : crlf.length = 2 := rfl
  have hcrlfcrlf : crlfcrlf.length = 4 := rfl
  have hle1 : pos1 ≤ start.length := by
    refine le_of_find hpos1 ?_
    rw [raw_headerBlock, List.drop_left' rfl]
    exact List.prefix_append _ _
  rw [List.length_drop, List.length_append, List.length_append, length_headerBlock] at hlengths
  rw [List.length_drop, List.length_append, List.length_append, length_headerBlock] at hpos
  have hnot : ∀ j, pos1 ≤ j → j < start.length + (fieldLines fields).length →
      ¬ crlfcrlf <+: (start ++ (headerBlock fields ++ body)).drop j := by
    intro j hj hlt hprefix
    have hle := @le_of_find _ _ _ hi (j - pos1) (by rwa [List.drop_drop, Nat.add_sub_cancel' hj])
    omega
  intro f hf
  obtain ⟨before, behind, rfl⟩ := List.append_of_mem hf
  obtain ⟨front, hfront, hfrontLength⟩ := exists_front before
  have hlines : fieldLines (before ++ f :: behind) = fieldLines before ++ (f.line ++ crlf ++ fieldLines behind) := by
    rw [fieldLines, List.flatMap_append, List.flatMap_cons]
    rfl
  have hraw : start ++ (headerBlock (before ++ f :: behind) ++ body) =
      start ++ (front ++ (crlf ++ (f.name ++ (58 :: f.value ++ crlf ++ fieldLines behind ++ crlf ++ body)))) := by
    rw [headerBlock, hlines, Field.line, ← List.append_assoc crlf, ← List.append_assoc crlf, hfront]
    simp
  rw [hlines, List.length_append, List.length_append, List.length_append, Field.line, List.length_append,
    List.length_cons] at hnot
  refine ⟨hname f hf, fun hstart => ?_, fun hinside => ?_⟩
  · refine hnot (start.length + front.length) (by omega) (by omega) ?_
    rw [hraw, ← List.drop_drop, List.drop_left' rfl, List.drop_left' rfl]
    exact (List.prefix_append_right_inj crlf).2 (hstart.trans (List.prefix_append _ _))
  · obtain ⟨left, right, hsplit⟩ := hinside
    have hsplitLength := congrArg List.length hsplit
    rw [List.length_append, List.length_append] at hsplitLength
    refine hnot (start.length + front.length + 2 + left.length) (by omega) (by omega) ?_
    rw [hraw, ← List.drop_drop, ← List.drop_drop, ← List.drop_drop, List.drop_left' rfl, List.drop_left' rfl,
      List.drop_left' hcrlf, ← hsplit, List.append_assoc, List.append_assoc, List.drop_left' rfl]
    exact List.prefix_append _ _

/-! ## Names -/

/-- Headers of which every name is read back. -/
structure Kept (headers : Headers) : Prop extends Printable headers where
  names : ∀ kv ∈ headers, KeptName kv.1

lemma Kept.perm (h : Kept headers) (hperm : headers'.Perm headers) : Kept headers' :=
  ⟨h.toPrintable.perm hperm, fun kv hkv => h.names kv (hperm.mem_iff.1 hkv)⟩

lemma Field.Plain.whole (h : f.Plain) (hname : KeptName f.name) : f.Whole := ⟨h.nonempty, hname.2.1, hname.2.2⟩

lemma kept_headersOf (h : ∀ f ∈ fields, f.Plain ∧ KeptName f.name) : Kept (headersOf fields) := by
  refine ⟨printable_headersOf fun f hf => (h f hf).1, fun kv hkv => ?_⟩
  obtain ⟨f, hf, hkey⟩ := mem_keys_headersOf (List.mem_map_of_mem (f := Prod.fst) hkv)
  rw [← hkey, (h f hf).1.lower]
  exact (h f hf).2

lemma plain_lengthField (body : Bytes) : (lengthField body).Plain ∧ KeptName (lengthField body).name := by
  have hvalue : 32 ∉ decimal body.length ∧ 13 ∉ decimal body.length ∧ 10 ∉ decimal body.length :=
    ⟨not_mem_decimal (by decide) _, not_mem_decimal (by decide) _, not_mem_decimal (by decide) _⟩
  have hkept : KeptName (ascii "content-length") := by
    refine ⟨by decide, by decide, fun hinside => ?_⟩
    exact absurd (hinside.subset (List.mem_cons_self : (13 : UInt8) ∈ crlfcrlf)) (by decide)
  have hname : ascii "content-length" ≠ [] ∧ lower (ascii "content-length") = ascii "content-length" ∧
      58 ∉ ascii "content-length" := by decide
  exact ⟨⟨hname.1, hname.2.1, hname.2.2, decimal body.length, rfl, trimStr_of_notMem hvalue.1, hvalue.2⟩, hkept⟩

/-- The fields of a printed message: those of its headers, and that of its length or none. -/
lemma Kept.plain_fields (h : Kept headers) {extra : List Field} (hextra : extra = [] ∨ extra = [lengthField body]) :
    ∀ f ∈ fieldsOf headers ++ extra, f.Plain ∧ KeptName f.name := by
  intro f hf
  rcases List.mem_append.1 hf with hf | hf
  · obtain ⟨kv, hkv, val, -, heq⟩ := mem_fieldsOf.1 hf
    refine ⟨h.toPrintable.plain hf, ?_⟩
    rw [heq]
    exact h.names kv hkv
  · rcases hextra with rfl | rfl
    · cases hf
    · rw [List.mem_singleton.1 hf]
      exact plain_lengthField body

lemma Kept.parse (h : Kept headers) (hstart : StartLine start) {extra : List Field}
    (hextra : extra = [] ∨ extra = [lengthField body]) :
    parseHttpString (start ++ (headerBlock (fieldsOf headers ++ extra) ++ body)) =
      some (trimStr start, headersOf (fieldsOf headers ++ extra), body) := by
  have hfields := h.plain_fields hextra
  exact parseHttpString_headerBlock hstart (fun f hf => (hfields f hf).1.readable (hfields f hf).2.1)
    (fun f hf => (hfields f hf).1.whole (hfields f hf).2) body

/-- Headers of which the names and the body are read were kept. -/
lemma Printable.kept_of_parse (h : Printable headers) {extra : List Field}
    (hextra : extra = [] ∨ extra = [lengthField body])
    (hparse : parseHttpString (start ++ (headerBlock (fieldsOf headers ++ extra) ++ body)) =
      some (first, headers', body))
    (hvalues : ∀ kv ∈ headers, headers'.values kv.1 ≠ none) : Kept headers := by
  have hnames : ∀ f ∈ fieldsOf headers ++ extra, f.name ≠ [] := by
    intro f hf
    rcases List.mem_append.1 hf with hf | hf
    · exact (h.plain hf).nonempty
    · rcases hextra with rfl | rfl
      · cases hf
      · rw [List.mem_singleton.1 hf]
        exact (plain_lengthField body).1.nonempty
  have hwhole := whole_of_parse hnames hparse
  obtain ⟨_, _, -, -, -, -, htrim⟩ := eq_of_parseHttpString hparse
  refine ⟨h, fun kv hkv => ?_⟩
  obtain ⟨val, hval⟩ := List.exists_mem_of_ne_nil _ (h.entries kv hkv).some_value
  have hf := hwhole ⟨kv.1, 32 :: val⟩ (List.mem_append_left _ (mem_fieldsOf.2 ⟨kv, hkv, val, hval, rfl⟩))
  obtain ⟨values, hsome⟩ := Option.ne_none_iff_exists'.1 (hvalues kv hkv)
  exact ⟨htrim kv.1 (List.mem_map.2 ⟨_, mem_of_values hsome, rfl⟩), hf.start, hf.inside⟩

/-- What is read back of the headers is there, as it is or with a length more. -/
lemma values_ne_none (h : Printable headers)
    (hsame : SameHeaders headers headers' ∨ LengthAdded body headers headers') :
    ∀ kv ∈ headers, headers'.values kv.1 ≠ none := by
  intro kv hkv hnone
  have hvalues := values_of_mem h.keys hkv
  rcases hsame with hsame | hsame
  · rw [← hsame, hvalues] at hnone
    cases hnone
  · rw [hsame] at hnone
    split_ifs at hnone
    rw [hvalues] at hnone
    cases hnone

/-- Without a length the headers are read back as they are. -/
lemma sameHeaders_headersOf (h : Printable headers) (hperm : headers'.Perm headers) :
    SameHeaders headers (headersOf (fieldsOf headers' ++ [])) := by
  intro key
  rw [List.append_nil, values_fieldsOf (h.perm hperm), values_perm h.keys hperm]

/-- A length that is printed is read behind what is there. -/
lemma lengthAdded_headersOf (h : Printable headers) (hperm : headers'.Perm headers) (body : Bytes) :
    LengthAdded body headers (headersOf (fieldsOf headers' ++ [lengthField body])) := by
  intro key
  have hkey : (lengthField body).key = ascii "content-length" := (plain_lengthField body).1.lower
  have hvalue : trimStr (lengthField body).value = decimal body.length := by
    rw [lengthField, trimStr_cons_space]
    exact trimStr_of_notMem (not_mem_decimal (by decide) _)
  rw [values_headersOf_concat, hkey, hvalue, values_fieldsOf (h.perm hperm), values_fieldsOf (h.perm hperm),
    values_perm h.keys hperm, values_perm h.keys hperm]
  by_cases heq : ascii "content-length" = key
  · rw [if_pos heq, if_pos heq.symm, heq]
  · rw [if_neg heq, if_neg (Ne.symm heq)]

lemma not_sameHeaders (h : LengthAdded body headers headers') : ¬ SameHeaders headers headers' := by
  intro hsame
  have hvalues := hsame (ascii "content-length")
  rw [h, if_pos rfl] at hvalues
  cases hold : headers.values (ascii "content-length") with
  | none =>
    rw [hold] at hvalues
    cases hvalues
  | some values =>
    rw [hold, Option.some.injEq, Option.getD_some] at hvalues
    have hlength := congrArg List.length hvalues
    rw [List.length_append, List.length_singleton] at hlength
    omega

/-! ## Line ends in joined texts -/

lemma infix_or_of_append {c : UInt8} {front rear : Bytes} (h13 : c ≠ 13) (h10 : c ≠ 10)
    (h : crlf <:+: front ++ c :: rear) :
    crlf <:+: front ∨ crlf <:+: rear := by
  obtain ⟨left, right, hsplit⟩ := h
  rw [List.append_assoc, List.append_eq_append_iff] at hsplit
  rcases hsplit with ⟨bs, hfront, hrest⟩ | ⟨bs, -, hrest⟩
  · match bs with
    | [] =>
      rw [List.nil_append, crlf, List.cons_append, List.cons.injEq] at hrest
      exact absurd hrest.1.symm h13
    | [b] =>
      rw [crlf, List.cons_append, List.cons_append, List.nil_append, List.singleton_append, List.cons.injEq,
        List.cons.injEq] at hrest
      exact absurd hrest.2.1.symm h10
    | b :: b' :: bs =>
      rw [crlf, List.cons_append, List.cons_append, List.nil_append, List.cons_append, List.cons_append,
        List.cons.injEq,
        List.cons.injEq] at hrest
      refine .inl ⟨left, bs, ?_⟩
      rw [hfront, ← hrest.1, ← hrest.2.1, crlf]
      simp
  · cases bs with
    | nil =>
      rw [List.nil_append, crlf, List.cons_append, List.cons.injEq] at hrest
      exact absurd hrest.1 h13
    | cons b bs =>
      rw [List.cons_append, List.cons.injEq] at hrest
      exact .inr ⟨bs, right, by rw [hrest.2, List.append_assoc]⟩

lemma not_infix_append {front rear : Bytes} (h : ¬ crlf <:+: front) (h10 : 10 ∉ rear) : ¬ crlf <:+: front ++ rear := by
  rintro ⟨left, right, hsplit⟩
  rw [List.append_eq_append_iff] at hsplit
  rcases hsplit with ⟨bs, hfront, -⟩ | ⟨bs, hfront, hrear⟩
  · exact h ⟨left, bs, hfront.symm⟩
  · by_cases hbs : bs = []
    · rw [hbs, List.append_nil] at hfront
      exact h ⟨left, [], by rw [List.append_nil, hfront]⟩
    · have hlast : bs.getLast? = some 10 := by
        rw [← List.getLast?_append_of_ne_nil front hbs, ← hfront, crlf, List.getLast?_append_of_ne_nil _ (by decide)]
        rfl
      exact h10 (hrear ▸ List.mem_append_left right (List.mem_of_getLast? hlast))

/-! ## Requests -/

namespace HttpRequest

variable {r r' : HttpRequest}

def requestLine (r : HttpRequest) : Bytes := r.method ++ 32 :: (r.url.getPath ++ 32 :: ascii "HTTP/1.1")

def extra (r : HttpRequest) : List Field := if r.body ≠ [] then [lengthField r.body] else []

lemma extra_cases (r : HttpRequest) : r.extra = [] ∨ r.extra = [lengthField r.body] := by
  rw [extra]
  by_cases h : r.body ≠ []
  · rw [if_pos h]
    exact .inr rfl
  · rw [if_neg h]
    exact .inl rfl

lemma toString_eq (r : HttpRequest) (headers : Headers) :
    r.toString headers = r.requestLine ++ (headerBlock (fieldsOf headers ++ r.extra) ++ r.body) := by
  have hspace : ascii " " = [32] ∧ ascii " HTTP/1.1" = 32 :: ascii "HTTP/1.1" := by decide
  have hlines : fieldLines (fieldsOf headers ++ r.extra) =
      printHeaders headers ++ (if r.body ≠ [] then lengthHeader r.body else []) := by
    rw [extra]
    by_cases h : r.body ≠ []
    · rw [if_pos h, if_pos h, fieldLines_concat, fieldLines_fieldsOf, line_lengthField]
    · rw [if_neg h, if_neg h, List.append_nil, List.append_nil, fieldLines_fieldsOf]
  rw [toString, requestLine, headerBlock, hlines, hspace.1, hspace.2]
  by_cases h : r.body ≠ []
  · rw [if_pos h, if_pos h]
    simp
  · rw [if_neg h, if_neg h, not_not.1 h]
    simp

/-- Behind the path the parameters hold no spaces and no line ends. -/
lemma WellFormed.getPath_eq (h : r.WellFormed) :
    ∃ rest, r.url.getPath = r.url.path ++ rest ∧ 32 ∉ rest ∧ 13 ∉ rest ∧ 10 ∉ rest := by
  obtain ⟨pairs, hurl⟩ := h.params
  have hplain : ∀ b : UInt8, b = 32 ∨ b = 13 ∨ b = 10 → b ∉ 63 :: joinParams r.url.params := by
    intro b hb hmem
    have hne : b ≠ 63 ∧ b ≠ 61 ∧ b ≠ 38 ∧ ¬ (b = 37 ∨ b = 43 ∨ isUnreserved b = true) := by
      rcases hb with rfl | rfl | rfl <;> decide
    rw [hurl, URL.setParams_eq, List.mem_cons, or_iff_right hne.1] at hmem
    obtain ⟨kv, hkv, hbkv⟩ := List.mem_flatMap.1 hmem
    obtain ⟨pair, -, rfl⟩ := List.mem_map.1 hkv
    rw [List.mem_append, List.mem_append, List.mem_append, List.mem_singleton, List.mem_singleton] at hbkv
    rcases hbkv with ((hkey | hsep) | hvalue) | hsep
    · exact notMem_encode_of hne.2.2.2 _ _ hkey
    · exact hne.2.1 hsep
    · exact notMem_encode_of hne.2.2.2 _ _ hvalue
    · exact hne.2.2.1 hsep
  rw [URL.getPath]
  by_cases hparams : r.url.params = []
  · rw [if_pos hparams]
    exact ⟨[], (List.append_nil _).symm, List.not_mem_nil, List.not_mem_nil, List.not_mem_nil⟩
  · have hsub := List.dropLast_subset (63 :: joinParams r.url.params)
    rw [if_neg hparams, List.append_assoc, List.singleton_append, List.dropLast_append_of_ne_nil (List.cons_ne_nil _ _)]
    exact ⟨_, rfl, fun hmem => hplain 32 (.inl rfl) (hsub hmem), fun hmem => hplain 13 (.inr (.inl rfl)) (hsub hmem),
      fun hmem => hplain 10 (.inr (.inr rfl)) (hsub hmem)⟩

lemma fromString_of_parse (h : r.WellFormed) (hparse : parseHttpString raw = some (r.requestLine, headers, body)) :
    fromString raw = some ⟨r.method, r.url, headers, body⟩ := by
  obtain ⟨rest, hpath, hspace, -, -⟩ := h.getPath_eq
  have hnospace : 32 ∉ r.url.getPath := by
    rw [hpath, List.mem_append, not_or]
    exact ⟨h.path.2.1, hspace⟩
  have hhead : r.url.getPath.head? = some 47 := by rw [hpath, List.head?_append, h.path.1, Option.some_or]
  have hpos1 : find [32] r.requestLine = some r.method.length := by
    have hfind := @find_append [] _ _ h.method (r.url.getPath ++ 32 :: ascii "HTTP/1.1")
    rwa [List.append_assoc] at hfind
  have hrest : (r.requestLine.drop (r.method.length + 1)).dropWhile (· == 32) = r.url.getPath ++ 32 :: ascii "HTTP/1.1" := by
    rw [requestLine, ← List.drop_drop, List.drop_left' rfl, List.drop_one, List.tail_cons]
    cases hurl : r.url.getPath with
    | nil =>
      rw [hurl] at hhead
      cases hhead
    | cons b bs =>
      rw [hurl, List.head?_cons, Option.some.injEq] at hhead
      exact List.dropWhile_cons_of_neg (by rw [hhead]; decide)
  have hpos2 : find [32] (r.url.getPath ++ 32 :: ascii "HTTP/1.1") = some r.url.getPath.length := by
    have hfind := @find_append [] _ _ hnospace (ascii "HTTP/1.1")
    rwa [List.append_assoc] at hfind
  have hurl : URL.setPath {} r.url.getPath = some r.url := by
    obtain ⟨pairs, hpairs⟩ := h.params
    have hseparable : URL.Separable r.url.params := by
      rw [hpairs]
      exact URL.Separable.setParams (u := { path := r.url.path }) nofun pairs
    rw [URL.setPath, URL.getParamsFromPath_getPath h.path.1 h.path.2.2 hseparable]
    rfl
  rw [fromString, hparse, Option.bind_eq_bind, Option.bind_some]
  dsimp only
  rw [hpos1, Option.bind_eq_bind, Option.bind_some, hrest, hpos2, Option.bind_eq_bind, Option.bind_some,
    List.take_left' rfl, hurl, Option.bind_some, requestLine, List.take_left' rfl]

/-- The parts of the request line that are read back. -/
structure Kept (r : HttpRequest) : Prop where
  method : r.method ≠ [] ∧ ¬ crlf <:+: r.method
  path : ¬ crlf <:+: r.url.path
  headers : Net.Kept r.headers

lemma requestLine_concat (r : HttpRequest) :
    r.requestLine = r.method ++ 32 :: (r.url.getPath ++ 32 :: ascii "HTTP/1.") ++ [49] := by
  have hversion : ascii "HTTP/1.1" = ascii "HTTP/1." ++ [49] := by decide
  rw [requestLine, hversion]
  simp

lemma Kept.startLine (h : r.Kept) (hwf : r.WellFormed) : StartLine r.requestLine := by
  obtain ⟨rest, hpath, -, -, h10⟩ := hwf.getPath_eq
  constructor
  · intro hinside
    rw [requestLine, hpath] at hinside
    rcases infix_or_of_append (by decide) (by decide) hinside with hinside | hinside
    · exact h.method.2 hinside
    · rcases infix_or_of_append (by decide) (by decide) hinside with hinside | hinside
      · exact not_infix_append h.path h10 hinside
      · exact absurd (hinside.subset (List.mem_cons_self : (13 : UInt8) ∈ crlf)) (by decide)
  · rw [requestLine_concat, List.getLast?_concat]
    decide

lemma Kept.trimStr_requestLine (h : r.Kept) (hwf : r.WellFormed) : trimStr r.requestLine = r.requestLine := by
  refine trimStr_of_ends ?_ ?_
  · obtain ⟨b, bs, hmethod⟩ := List.exists_cons_of_ne_nil h.method.1
    rw [requestLine, hmethod, List.cons_append, List.head?_cons]
    intro hb
    exact hwf.method (by rw [hmethod, Option.some.inj hb]; exact List.mem_cons_self)
  · rw [requestLine_concat, List.getLast?_concat]
    decide

/-- What a printed request is read as. -/
lemma Kept.fromString_toString (h : r.Kept) (hwf : r.WellFormed) (hperm : headers.Perm r.headers) :
    fromString (r.toString headers) = some ⟨r.method, r.url, headersOf (fieldsOf headers ++ r.extra), r.body⟩ := by
  have hparse := (h.headers.perm hperm).parse (h.startLine hwf) r.extra_cases
  rw [h.trimStr_requestLine hwf] at hparse
  rw [toString_eq]
  exact fromString_of_parse hwf hparse

/-- What is read is a request of the same kind. -/
lemma Kept.reread (h : r.Kept) (hwf : r.WellFormed) (hperm : headers.Perm r.headers) {extra : List Field}
    (hextra : extra = [] ∨ extra = [lengthField body]) (body' : Bytes) :
    (HttpRequest.mk r.method r.url (headersOf (fieldsOf headers ++ extra)) body').Kept ∧
      (HttpRequest.mk r.method r.url (headersOf (fieldsOf headers ++ extra)) body').WellFormed := by
  have hheaders := kept_headersOf ((h.headers.perm hperm).plain_fields hextra)
  exact ⟨⟨h.method, h.path, hheaders⟩, hwf.method, hwf.path, hwf.params, hheaders.toPrintable⟩

/-- A request that is read as the same request was kept. -/
lemma WellFormed.kept (hwf : r.WellFormed) (hperm : headers.Perm r.headers)
    (hread : fromString (r.toString headers) = some r')
    (hrest : wire.SameRest r r')
    (hheaders : SameHeaders r.headers r'.headers ∨ LengthAdded r.body r.headers r'.headers) : r.Kept := by
  obtain ⟨⟨first, headers', body⟩, hparse, hread⟩ := Option.bind_eq_some_iff.1 hread
  obtain ⟨pos1, hpos1, hread⟩ := Option.bind_eq_some_iff.1 hread
  obtain ⟨pos2, hpos2, hread⟩ := Option.bind_eq_some_iff.1 hread
  obtain ⟨url, hurl, hread⟩ := Option.bind_eq_some_iff.1 hread
  obtain rfl := Option.some.inj hread
  have hline := not_infix_of_parseHttpString hparse
  obtain ⟨hrest, hbody⟩ := hrest
  obtain ⟨hmethod, hpath⟩ := Prod.mk.inj hrest
  dsimp only [wire] at hmethod hpath hbody
  obtain ⟨front, rear, hfirst, -, rfl⟩ := eq_append_of_find hpos1
  have hfront : r.method = front := by rw [hmethod, hfirst, List.take_left' rfl]
  refine ⟨⟨fun hnil => ?_, fun hinside => ?_⟩, fun hinside => ?_, ?_⟩
  · obtain ⟨_, _, -, -, htrim, -, -⟩ := eq_of_parseHttpString hparse
    rw [htrim, ← hfront, hnil] at hfirst
    refine head?_trimStr _ (congrArg List.head? hfirst)
  · rw [hfront] at hinside
    exact hline (hinside.trans (hfirst ▸ (List.prefix_append front _).isInfix))
  · obtain ⟨p, hp, rfl⟩ := Option.map_eq_some_iff.1 hurl
    rw [getParamsFromPath] at hp
    split_ifs at hp
    obtain rfl := Option.some.inj hp
    rw [hpath] at hinside
    refine hline (hinside.trans ?_)
    exact ((List.takeWhile_prefix _).isInfix.trans (List.take_prefix _ _).isInfix).trans
      ((List.dropWhile_suffix _).isInfix.trans (List.drop_suffix _ _).isInfix)
  · rw [toString_eq, ← hbody] at hparse
    have hvalues := values_ne_none hwf.headers hheaders
    exact ((hwf.headers.perm hperm).kept_of_parse r.extra_cases hparse fun kv hkv =>
      hvalues kv (hperm.mem_iff.1 hkv)).perm hperm.symm

/-- Requests are read back as they are when they have no body and nothing in them is taken for something else. -/
lemma roundTrips_iff (hwf : r.WellFormed) : wire.RoundTrips r ↔ r.body = [] ∧ r.Kept := by
  constructor
  · intro h
    obtain ⟨r', hread, hrest, hheaders, hstable⟩ := h _ ⟨r.headers, List.Perm.refl _, rfl⟩
    have hkept := hwf.kept (List.Perm.refl _) hread hrest hheaders
    refine ⟨not_not.1 fun hbody => ?_, hkept⟩
    have hread' := hkept.fromString_toString hwf (List.Perm.refl _)
    obtain rfl := Option.some.inj (hread.symm.trans hread')
    obtain ⟨hkept', hwf'⟩ := hkept.reread hwf (List.Perm.refl _) r.extra_cases r.body
    have hread'' := hkept'.fromString_toString hwf' (List.Perm.refl _)
    obtain ⟨-, hsame, -⟩ := hstable _ (.single ⟨_, ⟨_, List.Perm.refl _, rfl⟩, hread''⟩)
    have hextra : ∀ headers, (HttpRequest.mk r.method r.url headers r.body).extra = [lengthField r.body] :=
      fun headers => if_pos hbody
    have hlength := lengthAdded_headersOf hwf'.headers (List.Perm.refl _) r.body
    rw [← hextra] at hlength
    exact not_sameHeaders hlength hsame
  · rintro ⟨hbody, hkept⟩ raw hraw
    have hstep : ∀ (r : HttpRequest) raw, (r.body = [] ∧ r.Kept ∧ r.WellFormed) → wire.Prints r raw →
        ∃ r', fromString raw = some r' ∧ (r'.body = [] ∧ r'.Kept ∧ r'.WellFormed) ∧ wire.SameRest r r' ∧
          SameHeaders r.headers r'.headers := by
      rintro r raw ⟨hbody, hkept, hwf⟩ ⟨headers, hperm, rfl⟩
      have hextra : r.extra = [] := if_neg (not_not.2 hbody)
      have hsame := sameHeaders_headersOf hwf.headers hperm
      obtain ⟨hkept', hwf'⟩ := hkept.reread hwf hperm (.inl rfl : ([] : List Field) = [] ∨ [] = [lengthField []]) r.body
      rw [← hextra] at hsame hkept' hwf'
      exact ⟨_, hkept.fromString_toString hwf hperm, ⟨hbody, hkept', hwf'⟩, ⟨rfl, rfl⟩, hsame⟩
    obtain ⟨r', hread, hgood, hrest, hsame⟩ := hstep r raw ⟨hbody, hkept, hwf⟩ hraw
    exact ⟨r', hread, hrest, .inl hsame, Wire.stable_of_kept wire hstep hgood⟩

end HttpRequest

/-! ## Responses -/

namespace HttpResponse

variable {r r' : HttpResponse}

def statusLine (r : HttpResponse) : Bytes := ascii "HTTP/1.1 " ++ decimalInt r.statusCode

def extra (r : HttpResponse) : List Field :=
  if r.body ≠ [] ∧ r.headers.values (ascii "content-length") = none then [lengthField r.body] else []

lemma extra_cases (r : HttpResponse) : r.extra = [] ∨ r.extra = [lengthField r.body] := by
  rw [extra]
  split_ifs
  · exact .inr rfl
  · exact .inl rfl

lemma toString_eq (r : HttpResponse) (headers : Headers) :
    r.toString headers = r.statusLine ++ (headerBlock (fieldsOf headers ++ r.extra) ++ r.body) := by
  have hlines : fieldLines (fieldsOf headers ++ r.extra) = printHeaders headers ++
      (if r.body ≠ [] ∧ r.headers.values (ascii "content-length") = none then lengthHeader r.body else []) := by
    rw [extra]
    by_cases h : r.body ≠ [] ∧ r.headers.values (ascii "content-length") = none
    · rw [if_pos h, if_pos h, fieldLines_concat, fieldLines_fieldsOf, line_lengthField]
    · rw [if_neg h, if_neg h, List.append_nil, List.append_nil, fieldLines_fieldsOf]
  rw [toString, statusLine, headerBlock, hlines]
  simp

lemma extra_eq_nil (h : r.body = [] ∨ r.headers.values (ascii "content-length") ≠ none) : r.extra = [] :=
  if_neg fun hextra => h.elim hextra.1 fun hvalues => hvalues hextra.2

lemma notMem_statusLine {b : UInt8} (hb : b = 13 ∨ b = 10) (r : HttpResponse) : b ∉ r.statusLine := by
  have hplain : b ∉ ascii "HTTP/1.1 " ∧ b ≠ 45 ∧ isDigit b = false := by rcases hb with rfl | rfl <;> decide
  rw [statusLine, List.mem_append, not_or]
  exact ⟨hplain.1, notMem_decimalInt hplain.2⟩

lemma decimalInt_statusCode (h : r.WellFormed) :
    ∃ n : Nat, r.statusCode = n ∧ n < 2 ^ 31 ∧ decimalInt r.statusCode = decimal n := by
  obtain ⟨hle, hlt⟩ := h.status
  obtain ⟨n, hn⟩ := Int.eq_ofNat_of_zero_le (by omega : 0 ≤ r.statusCode)
  refine ⟨n, hn, by omega, ?_⟩
  rw [hn]
  rfl

lemma startLine (r : HttpResponse) : StartLine r.statusLine where
  inside hinside := notMem_statusLine (.inl rfl) r (hinside.subset List.mem_cons_self)
  last hlast := notMem_statusLine (.inl rfl) r (List.mem_of_getLast? hlast)

lemma trimStr_statusLine (h : r.WellFormed) : trimStr r.statusLine = r.statusLine := by
  obtain ⟨n, -, -, hn⟩ := decimalInt_statusCode h
  rw [statusLine, hn]
  refine trimStr_of_ends ?_ ?_
  · have hhead : (ascii "HTTP/1.1 ").head? = some 72 := by decide
    rw [List.head?_append, hhead, Option.some_or]
    decide
  · rw [List.getLast?_append_of_ne_nil _ (decimal_ne_nil n)]
    exact fun hlast => not_mem_decimal (by decide) n (List.mem_of_getLast? hlast)

lemma fromString_of_parse (h : r.WellFormed) (hparse : parseHttpString raw = some (r.statusLine, headers, body)) :
    fromString raw = some ⟨raw, body, r.statusCode, headers⟩ := by
  obtain ⟨n, hcode, hlt, hn⟩ := decimalInt_statusCode h
  have hspace : ∀ b ∈ decimal n, (b == 32) = false := fun b hb => beq_eq_false_iff_ne.2 fun heq =>
    not_mem_decimal (by decide) n (heq ▸ hb)
  have hword : statusWord r.statusLine = some (decimal n) := by
    have hline : r.statusLine = ascii "HTTP/1.1" ++ [32] ++ decimal n := by rw [statusLine, hn]; rfl
    have hpos : find [32] r.statusLine = some 8 := by
      rw [hline]
      exact find_append (by decide) _
    have hdrop : (r.statusLine.drop (8 + 1)).dropWhile (· == 32) = decimal n := by
      rw [hline, List.drop_left' (by decide)]
      obtain ⟨b, bs, heq⟩ := List.exists_cons_of_ne_nil (decimal_ne_nil n)
      rw [heq] at hspace ⊢
      exact List.dropWhile_cons_of_neg (by rw [hspace b List.mem_cons_self]; decide)
    have htake : (decimal n).takeWhile (· != 32) = decimal n :=
      List.takeWhile_eq_self_iff.2 fun b hb => by rw [bne, hspace b hb, Bool.not_false]
    rw [statusWord, hpos, Option.bind_eq_bind, Option.bind_some]
    dsimp only
    rw [hdrop, if_neg (decimal_ne_nil n), htake]
  have hstoi : stoi (decimal n) = some r.statusCode := by
    rw [stoi, integerPrefix_decimal, hcode, Option.filter_some, if_pos]
    exact decide_eq_true (by omega)
  rw [fromString, hparse, Option.bind_eq_bind, Option.bind_some]
  dsimp only
  rw [hword, Option.bind_eq_bind, Option.bind_some, hstoi, Option.bind_eq_bind, Option.bind_some]

/-- What a printed response is read as. -/
lemma fromString_toString (hwf : r.WellFormed) (h : Kept r.headers) (hperm : headers.Perm r.headers) :
    fromString (r.toString headers) =
      some ⟨r.toString headers, r.body, r.statusCode, headersOf (fieldsOf headers ++ r.extra)⟩ := by
  have hparse := (h.perm hperm).parse r.startLine r.extra_cases
  rw [trimStr_statusLine hwf, ← toString_eq] at hparse
  exact fromString_of_parse hwf hparse

/-- A response that is read as the same response was kept. -/
lemma WellFormed.kept (hwf : r.WellFormed) (hperm : headers.Perm r.headers)
    (hread : fromString (r.toString headers) = some r')
    (hrest : wire.SameRest r r')
    (hheaders : SameHeaders r.headers r'.headers ∨ LengthAdded r.body r.headers r'.headers) : Kept r.headers := by
  obtain ⟨⟨first, headers', body⟩, hparse, hread⟩ := Option.bind_eq_some_iff.1 hread
  obtain ⟨word, -, hread⟩ := Option.bind_eq_some_iff.1 hread
  obtain ⟨statusCode, -, hread⟩ := Option.bind_eq_some_iff.1 hread
  obtain rfl := Option.some.inj hread
  have hbody : r.body = body := hrest.2
  rw [toString_eq, ← hbody] at hparse
  have hvalues := values_ne_none hwf.headers hheaders
  exact ((hwf.headers.perm hperm).kept_of_parse r.extra_cases hparse fun kv hkv =>
    hvalues kv (hperm.mem_iff.1 hkv)).perm hperm.symm

/-- One printing and parsing gives a response of the same kind, with a length when it has a body. -/
lemma reread (hwf : r.WellFormed) (h : Kept r.headers) (hraw : wire.Prints r raw) :
    ∃ r', fromString raw = some r' ∧ (r'.extra = [] ∧ Kept r'.headers ∧ r'.WellFormed) ∧ wire.SameRest r r' ∧
      (r.extra = [] → SameHeaders r.headers r'.headers) ∧
        (SameHeaders r.headers r'.headers ∨ LengthAdded r.body r.headers r'.headers) := by
  obtain ⟨headers, hperm, rfl⟩ := hraw
  have hkept := kept_headersOf ((h.perm hperm).plain_fields r.extra_cases)
  refine ⟨_, fromString_toString hwf h hperm, ⟨?_, hkept, hwf.status, hkept.toPrintable⟩, ⟨rfl, rfl⟩, ?_, ?_⟩
  · by_cases hlength : r.body = [] ∨ r.headers.values (ascii "content-length") ≠ none
    · refine extra_eq_nil (hlength.imp_right fun hvalues => ?_)
      rwa [extra_eq_nil hlength, ← sameHeaders_headersOf h.toPrintable hperm]
    · rw [not_or, not_not] at hlength
      have hextra : r.extra = [lengthField r.body] := if_pos hlength
      refine extra_eq_nil (.inr ?_)
      rw [hextra, lengthAdded_headersOf h.toPrintable hperm, if_pos rfl]
      exact Option.some_ne_none _
  · intro hextra
    rw [hextra]
    exact sameHeaders_headersOf h.toPrintable hperm
  · rcases r.extra_cases with hextra | hextra
    · rw [hextra]
      exact .inl (sameHeaders_headersOf h.toPrintable hperm)
    · rw [hextra]
      exact .inr (lengthAdded_headersOf h.toPrintable hperm r.body)

/-- Responses are read back as they are when no name of a header is taken for something else. -/
lemma roundTrips_iff (hwf : r.WellFormed) : wire.RoundTrips r ↔ Kept r.headers := by
  constructor
  · intro h
    obtain ⟨r', hread, hrest, hheaders, -⟩ := h _ ⟨r.headers, List.Perm.refl _, rfl⟩
    exact WellFormed.kept hwf (List.Perm.refl _) hread hrest hheaders
  · intro hkept raw hraw
    obtain ⟨r', hread, hgood, hrest, -, hsame⟩ := reread hwf hkept hraw
    have hstep : ∀ (r : HttpResponse) raw, (r.extra = [] ∧ Kept r.headers ∧ r.WellFormed) → wire.Prints r raw →
        ∃ r', fromString raw = some r' ∧ (r'.extra = [] ∧ Kept r'.headers ∧ r'.WellFormed) ∧ wire.SameRest r r' ∧
          SameHeaders r.headers r'.headers := by
      intro r raw hr hraw
      obtain ⟨r', hread, hgood, hrest, hsame, -⟩ := reread hr.2.2 hr.2.1 hraw
      exact ⟨r', hread, hgood, hrest, hsame hr.1⟩
    exact ⟨r', hread, hrest, hsame, Wire.stable_of_kept wire hstep hgood⟩

end HttpResponse

/-- Requests are read back, once and ever after, when they have no body and neither their first line nor a name holds
what the parser takes for an end; responses, when no name does. -/
theorem reprinted_iff (q : HttpRequest) (r : HttpResponse) :
    (q.WellFormed → (HttpRequest.wire.RoundTrips q ↔ q.body = [] ∧ (q.method ≠ [] ∧ ¬ crlf <:+: q.method) ∧
      ¬ crlf <:+: q.url.path ∧ ∀ kv ∈ q.headers, KeptName kv.1)) ∧
    (r.WellFormed → (HttpResponse.wire.RoundTrips r ↔ ∀ kv ∈ r.headers, KeptName kv.1)) := by
  refine ⟨fun hwf => ?_, fun hwf => ?_⟩
  · rw [HttpRequest.roundTrips_iff hwf]
    exact and_congr_right' ⟨fun h => ⟨h.method, h.path, h.headers.names⟩, fun h => ⟨h.1, h.2.1, ⟨hwf.headers, h.2.2⟩⟩⟩
  · rw [HttpResponse.roundTrips_iff hwf]
    exact ⟨fun h => h.names, fun h => ⟨hwf.headers, h⟩⟩

/-- A request with parameters and a repeated name, and a response with a body. -/
theorem reprinted_iff_repeated :
    HttpRequest.wire.RoundTrips ⟨ascii "GET", URL.setParams { path := ascii "/a" } [(ascii "k", ascii "v w")],
      [(ascii "accept", [ascii "x", ascii "y z"])], []⟩ ∧
    HttpResponse.wire.RoundTrips ⟨[], ascii "a\r\n\r\nb", 200, [(ascii "set-cookie", [ascii "x", ascii "y"])]⟩ := by
  have hname : ∀ name : Bytes, 13 ∉ name → trimStr name = name → KeptName name := fun name hcr htrim =>
    ⟨htrim, fun h => hcr (h.subset List.mem_cons_self), fun h => hcr (h.subset List.mem_cons_self)⟩
  have hinside : ∀ text : Bytes, 13 ∉ text → ¬ crlf <:+: text := fun text hcr h => hcr (h.subset List.mem_cons_self)
  have hboth := reprinted_iff
    ⟨ascii "GET", URL.setParams { path := ascii "/a" } [(ascii "k", ascii "v w")],
      [(ascii "accept", [ascii "x", ascii "y z"])], []⟩
    ⟨[], ascii "a\r\n\r\nb", 200, [(ascii "set-cookie", [ascii "x", ascii "y"])]⟩
  constructor
  · refine (hboth.1 ⟨by decide, by decide, ⟨_, rfl⟩, by decide, ?_⟩).2
      ⟨rfl, ⟨by decide, hinside _ (by decide)⟩, hinside _ (by decide), ?_⟩
    · exact List.forall_mem_singleton.2 ⟨by decide, by decide, by decide, by decide, by decide⟩
    · exact List.forall_mem_singleton.2 (hname _ (by decide) (by decide))
  · refine (hboth.2 ⟨by decide, by decide, ?_⟩).2 ?_
    · exact List.forall_mem_singleton.2 ⟨by decide, by decide, by decide, by decide, by decide⟩
    · exact List.forall_mem_singleton.2 (hname _ (by decide) (by decide))

/-- With its body a request gets its length again and again. -/
theorem reprinted_failing :
    HttpRequest.WellFormed ⟨ascii "POST", { path := ascii "/" }, [], ascii "x"⟩ ∧
      ¬ HttpRequest.wire.RoundTrips ⟨ascii "POST", { path := ascii "/" }, [], ascii "x"⟩ := by
  have hwf : HttpRequest.WellFormed ⟨ascii "POST", { path := ascii "/" }, [], ascii "x"⟩ :=
    ⟨by decide, by decide, ⟨[], rfl⟩, List.nodup_nil, nofun⟩
  exact ⟨hwf, fun h => absurd ((HttpRequest.roundTrips_iff hwf).1 h).1 (by decide)⟩

end CppExperiments.Net
