import CppExperiments.Redis.Resp

/-!
# The dump file

`Cache::save` writes the entries that have not expired, each with its value in the wire format inside a
length-prefixed string; `Cache::load` reads such a file back. A stream is the list of the bytes left to
read: a read that fails has taken what there was, and all reads after it fail.
-/

namespace CppExperiments.Redis

open CppExperiments.Expiring

/-- How `load` can fail to return: it does not come to an end, it uses a variable that a failed read left
uninitialized, a length is too large for a string, or a value is refused by throwing. -/
inductive LoadFault where
  | diverged
  | indeterminate
  | lengthError
  | aborted (a : Abort)
  deriving DecidableEq

def encodedString (str : Bytes) : Bytes := leBytes 8 str.length ++ str

def RedisNode.tag : RedisNode → UInt8
  | plain _ _ => 80
  | variant _ => 86
  | aggregate _ => 65

namespace Cache

/-- The loop at the start of `save`, over the keys of the cache. -/
def dropExpired (TS : Nat) : List Bytes → Cache → Cache
  | [], c => c
  | key :: keys, c =>
    if Past TS (c.ttl.lookup key) then dropExpired TS keys (c.erase key) else dropExpired TS keys c

/-- The bytes of a key and its value. -/
def entryBytes (ttl : AList (fun _ : Bytes => Nat)) (key : Bytes) (node : RedisNode) : Bytes :=
  (match ttl.lookup key with
    | none => []
    | some e => 252 :: leBytes 8 e) ++ node.tag :: (encodedString key ++ encodedString node.serialize)

def header : Bytes := ascii "REDIS0003"

/-- The bytes of the file. -/
def dump (TS : Nat) (c : Cache) : Bytes :=
  header ++ 250 :: (encodedString (ascii "Timestamp(ms)") ++ encodedString (decimal TS)) ++ [254, 0, 251] ++
    leBytes 8 c.cache.keys.length ++ leBytes 8 c.ttl.keys.length ++
    c.cache.entries.flatMap (fun kv => entryBytes c.ttl kv.1 kv.2) ++ [255]

/-- The bytes written, and the cache, from which the expired entries have been removed. -/
def save (env : Env) (c : Cache) : Bytes × Cache :=
  let (TS, c) := c.timeSinceEpoch env
  let c := c.dropExpired TS c.cache.keys
  (c.dump TS, c)

end Cache

/-- `ifs.get`: at the end of the file the byte read before is kept. -/
def get (nextByte : UInt8) : Bytes → UInt8 × Bytes
  | [] => (nextByte, [])
  | b :: s => (b, s)

/-- The word at the front of the file: the length of a string or a count. -/
def lengthOf (s : Bytes) : Nat := ofLeBytes (s.take 8)

/-- The string of that length, filled up with zeros where the file ends before it does. -/
def payload (s : Bytes) : Bytes :=
  (s.drop 8).take (lengthOf s) ++ zeros (lengthOf s - (s.drop 8).length)

/-- What is left to read behind the string. -/
def behind (s : Bytes) : Bytes := (s.drop 8).drop (lengthOf s)

def readEncodedString (s : Bytes) : Except LoadFault (Bytes × Bytes) :=
  if s.length < 8 then .error .indeterminate
  else if 2 ^ 63 ≤ lengthOf s then .error .lengthError
  else .ok (payload s, behind s)

/-- The loop over the auxiliary fields, with a bound on the number of rounds. -/
def auxFields : Nat → UInt8 → Bytes → Except LoadFault (UInt8 × Bytes)
  | 0, _, _ => .error .diverged
  | rounds + 1, nextByte, s =>
    if nextByte = 250 then do
      let (_, s) ← readEncodedString s
      let (_, s) ← readEncodedString s
      let (nextByte, s) := get nextByte s
      auxFields rounds nextByte s
    else .ok (nextByte, s)

/-- The expiry of an entry, if it has one, and the byte that tells the type of its value. -/
def readMarker (nextByte : UInt8) (s : Bytes) : Option Nat × UInt8 × Bytes :=
  let (nextByte, s) := get nextByte s
  if nextByte = 252 then
    let (type, rest) := get nextByte (s.drop 8)
    (some (ofLeBytes (s.take 8)), type, rest)
  else (none, nextByte, s)

def Cache.insert (c : Cache) (key : Bytes) (node : RedisNode) (ttlVal : Option Nat) : Cache :=
  match ttlVal with
  | none => c.setValue key node
  | some e => (c.setValue key node).setTTLMSAt key e

/-- The loop over the entries. -/
def readEntries : Nat → UInt8 → Bytes → Cache → Except LoadFault (UInt8 × Bytes × Cache)
  | 0, nextByte, s, c => .ok (nextByte, s, c)
  | count + 1, nextByte, s, c => do
    let (ttlVal, nextByte, s) := readMarker nextByte s
    let (key, s) ← readEncodedString s
    let (value, s) ← readEncodedString s
    match deserialize value with
    | .error a => .error (.aborted a)
    | .ok node => readEntries count nextByte s (c.insert key node ttlVal)

/-- The part of `load` behind the auxiliary fields. -/
def Cache.loadDatabase (nextByte : UInt8) (s : Bytes) (c : Cache) : Except LoadFault (Bool × Cache) :=
  if nextByte ≠ 254 then .ok (false, c)
  else
    let (nextByte, s) := get nextByte s
    let (nextByte, s) := get nextByte s
    if nextByte ≠ 251 then .ok (false, c)
    else do
      let cacheSize := lengthOf s
      let (nextByte, s, c) ← readEntries cacheSize nextByte ((s.drop 8).drop 8) c
      let (nextByte, _) := get nextByte s
      return (decide (nextByte = 255), c)

/-- Nine bytes are compared with the header. A file that ends within the header leaves some of them
uninitialized, and one that ends with it the first marker. -/
def Cache.load (content : Bytes) (c : Cache) : Except LoadFault (Bool × Cache) :=
  if content.take 9 ≠ Cache.header then
    if content <+: Cache.header then .error .indeterminate else .ok (false, c)
  else
    match content.drop 9 with
    | [] => .error .indeterminate
    | nextByte :: s => do
      let (nextByte, s) ← auxFields (s.length + 1) nextByte s
      c.loadDatabase nextByte s

/-- A string, built by a handler or with its text kept. -/
def StringNode (n : VariantRedisNode) : Prop :=
  ∃ token, n.value = .str token ∧ (n.serialized = [] ∨ BulkText n.serialized token)

/-- A string or a list of strings. -/
def RedisNode.Strings : RedisNode → Prop
  | plain _ _ => False
  | variant n => StringNode n
  | aggregate ns => ∀ n ∈ ns, StringNode n

/-- The node with its texts kept, as `serialize` leaves it. -/
def RedisNode.settled : RedisNode → RedisNode
  | plain m b => plain m b
  | variant n => variant n.settled
  | aggregate ns => aggregate (ns.map VariantRedisNode.settled)

/-- What fits into the variables of the server. -/
structure Cache.Sized (c : Cache) : Prop where
  key_lt : ∀ key, (c.cache.lookup key).isSome → key.length < 2 ^ 63
  node_lt : ∀ key node, c.cache.lookup key = some node → node.serialize.length < 2 ^ 63
  ttl_lt : ∀ key e, c.ttl.lookup key = some e → e < 2 ^ 64
  count_lt : c.cache.keys.length < 2 ^ 64

section Strings

variable {str rest s : Bytes} {n : VariantRedisNode} {node : RedisNode}

lemma lengthOf_encodedString (h : str.length < 2 ^ 64) (rest : Bytes) :
    lengthOf (encodedString str ++ rest) = str.length := by
  rw [lengthOf, encodedString, List.append_assoc, List.take_left' (length_leBytes 8 _), ofLeBytes_leBytes,
    Nat.mod_eq_of_lt (lt_of_lt_of_eq h (by decide))]

lemma drop_encodedString (str rest : Bytes) : (encodedString str ++ rest).drop 8 = str ++ rest := by
  rw [encodedString, List.append_assoc, List.drop_left' (length_leBytes 8 _)]

/-- A string is read back in front of whatever follows. -/
theorem readEncodedString_eq (h : str.length < 2 ^ 63) (rest : Bytes) :
    readEncodedString (encodedString str ++ rest) = .ok (str, rest) := by
  have hlength := lengthOf_encodedString (show str.length < 2 ^ 64 by omega) rest
  have hlong : ¬ (encodedString str ++ rest).length < 8 := by
    rw [encodedString, List.length_append, List.length_append, length_leBytes]
    omega
  have hfill : str.length - (str ++ rest).length = 0 := by
    rw [List.length_append]
    omega
  rw [readEncodedString, if_neg hlong, payload, behind, drop_encodedString, hlength, if_neg (by omega), hfill,
    List.take_left, List.drop_left]
  simp [zeros]

/-- Within the bounds of the server a kept text is a bulk string. -/
lemma StringNode.textual (h : StringNode n) (hlen : n.serialize.length < 2 ^ 64) : Textual n := by
  obtain ⟨token, hvalue, hkept⟩ := h
  by_cases hnil : n.serialized = []
  · have hn : n = .ofStr token := by
      cases n
      rw [VariantRedisNode.ofStr]
      congr
    rw [hn, serialize_ofStr, length_bulkText rfl] at hlen
    rw [hn]
    exact textual_ofStr (by omega)
  · have htext : n.serialize = n.serialized := by rw [VariantRedisNode.serialize, if_neg hnil]
    exact ⟨token, hvalue, htext ▸ hkept.resolve_left hnil⟩

lemma serialize_ne_nil (n : VariantRedisNode) : 0 < n.serialize.length := by
  rw [VariantRedisNode.serialize]
  by_cases h : n.serialized = []
  · rw [if_pos h]
    cases n.value with
    | long z => simp [ascii]
    | str token => simp [ascii]
    | null => simp [ascii]
  · rw [if_neg h]
    exact List.length_pos_iff.2 h

/-- What is written for a value is read as that value. -/
theorem deserialize_serialize (hs : node.Strings) (hlen : node.serialize.length < 2 ^ 63) :
    deserialize node.serialize = .ok node.settled := by
  cases node with
  | plain m b => exact hs.elim
  | variant n =>
    have hlong : n.serialize.length < 2 ^ 64 := lt_trans hlen (by decide)
    exact deserialize_variant (StringNode.textual hs hlong) hlong
  | aggregate ns =>
    have hsum := serialize_aggregate ns
    have hcount := length_le_flatMap serialize_ne_nil ns
    have hle : (ns.flatMap VariantRedisNode.serialize).length ≤ (RedisNode.aggregate ns).serialize.length := by
      rw [hsum, List.length_cons, List.length_append]
      omega
    apply deserialize_aggregate
    · intro n hn
      have hmem : n.serialize <:+: ns.flatMap VariantRedisNode.serialize := by
        obtain ⟨pre, post, rfl⟩ := List.append_of_mem hn
        exact ⟨pre.flatMap VariantRedisNode.serialize, post.flatMap VariantRedisNode.serialize, by simp⟩
      have hn_le := hmem.length_le
      exact (hs n hn).textual (by omega)
    · omega
    · omega

lemma tag_ne (node : RedisNode) : node.tag ≠ 252 := by
  cases node with
  | plain m b => exact (by decide : (80 : UInt8) ≠ 252)
  | variant n => exact (by decide : (86 : UInt8) ≠ 252)
  | aggregate ns => exact (by decide : (65 : UInt8) ≠ 252)

lemma readMarker_entryBytes {ttl : AList (fun _ : Bytes => Nat)} {key : Bytes}
    (ht : ∀ e, ttl.lookup key = some e → e < 2 ^ 64) (b : UInt8) (node : RedisNode) (rest : Bytes) :
    readMarker b (Cache.entryBytes ttl key node ++ rest)
      = (ttl.lookup key, node.tag, encodedString key ++ (encodedString node.serialize ++ rest)) := by
  cases he : ttl.lookup key with
  | none =>
    simp only [Cache.entryBytes, he, List.nil_append, List.cons_append, List.append_assoc, readMarker, get]
    rw [if_neg (tag_ne node)]
  | some e =>
    have hword : ofLeBytes (leBytes 8 e) = e := by
      rw [ofLeBytes_leBytes, Nat.mod_eq_of_lt (lt_of_lt_of_eq (ht e he) (by decide))]
    simp only [Cache.entryBytes, he, List.cons_append, List.append_assoc, readMarker, get]
    rw [if_pos trivial, List.take_left' (length_leBytes 8 e), List.drop_left' (length_leBytes 8 e), hword]

/-- One round of the loop over the entries. -/
lemma readEntries_succ {count : Nat} {b type : UInt8} {s s₁ s₂ s₃ key value : Bytes} {ttlVal : Option Nat}
    {node : RedisNode} (c : Cache) (hmarker : readMarker b s = (ttlVal, type, s₁))
    (hkey : readEncodedString s₁ = .ok (key, s₂)) (hvalue : readEncodedString s₂ = .ok (value, s₃))
    (hnode : deserialize value = .ok node) :
    readEntries (count + 1) b s c = readEntries count type s₃ (c.insert key node ttlVal) := by
  simp only [readEntries, hmarker, hkey, hvalue, hnode, bind, Except.bind]

/-- The entries written are read back, in their order. -/
theorem readEntries_eq (ttl : AList (fun _ : Bytes => Nat)) {entries : List (Sigma (fun _ : Bytes => RedisNode))}
    (hs : ∀ kv ∈ entries, kv.2.Strings) (hkey : ∀ kv ∈ entries, kv.1.length < 2 ^ 63)
    (hnode : ∀ kv ∈ entries, kv.2.serialize.length < 2 ^ 63)
    (ht : ∀ kv ∈ entries, ∀ e, ttl.lookup kv.1 = some e → e < 2 ^ 64) (b : UInt8) (rest : Bytes) (c : Cache) :
    ∃ b', readEntries entries.length b (entries.flatMap (fun kv => Cache.entryBytes ttl kv.1 kv.2) ++ rest) c
      = .ok (b', rest, entries.foldl (fun c kv => c.insert kv.1 kv.2.settled (ttl.lookup kv.1)) c) := by
  induction entries generalizing b c with
  | nil => exact ⟨b, rfl⟩
  | cons kv entries ih =>
    have hmem : ∀ kv' ∈ entries, kv' ∈ kv :: entries := fun kv' h => List.mem_cons_of_mem kv h
    obtain ⟨b', hb'⟩ := ih (fun kv' h => hs kv' (hmem kv' h)) (fun kv' h => hkey kv' (hmem kv' h))
      (fun kv' h => hnode kv' (hmem kv' h)) (fun kv' h => ht kv' (hmem kv' h)) kv.2.tag
      (c.insert kv.1 kv.2.settled (ttl.lookup kv.1))
    refine ⟨b', ?_⟩
    rw [List.length_cons, List.flatMap_cons, List.append_assoc,
      readEntries_succ c (readMarker_entryBytes (ht kv List.mem_cons_self) b kv.2 _)
        (readEncodedString_eq (hkey kv List.mem_cons_self) _) (readEncodedString_eq (hnode kv List.mem_cons_self) _)
        (deserialize_serialize (hs kv List.mem_cons_self) (hnode kv List.mem_cons_self))]
    exact hb'

end Strings

namespace Cache

variable {c : Cache} {k key : Bytes} {node : RedisNode} {TS : Nat} {t : Option Nat} {keys : List Bytes}

lemma lookup_insert_ne (h : k ≠ key) (c : Cache) (node : RedisNode) (t : Option Nat) :
    (c.insert key node t).ttl.lookup k = c.ttl.lookup k := by
  cases t with
  | none => rfl
  | some e => exact AList.lookup_insert_ne h

/-- An entry for a key that has no expiry yet. -/
lemma view_insert (h : c.ttl.lookup key = none) :
    (c.insert key node t).view = Function.update c.view key (some (node, t)) := by
  cases t with
  | none =>
    rw [insert, view_setValue, h]
  | some e =>
    have hlook : (c.setValue key node).cache.lookup key = some node := AList.lookup_insert _
    rw [insert, view_setTTLMSAt hlook, view_setValue, Function.update_idem]

/-- The entries put in one after another, with the expiries they have in `ttl`. -/
theorem view_foldl_insert {ttl : AList (fun _ : Bytes => Nat)} {entries : List (Sigma (fun _ : Bytes => RedisNode))}
    (hnodup : entries.NodupKeys) (hfresh : ∀ kv ∈ entries, c.ttl.lookup kv.1 = none) :
    (entries.foldl (fun c kv => c.insert kv.1 kv.2.settled (ttl.lookup kv.1)) c).view k
      = match entries.dlookup k with
        | some node => some (node.settled, ttl.lookup k)
        | none => c.view k := by
  induction entries generalizing c with
  | nil => rfl
  | cons kv entries ih =>
    rw [List.nodupKeys_cons] at hnodup
    have hne : ∀ kv' ∈ entries, kv'.1 ≠ kv.1 := by
      intro kv' hkv' heq
      exact hnodup.1 (heq ▸ List.mem_keys_of_mem hkv')
    have hrest : ∀ kv' ∈ entries, (c.insert kv.1 kv.2.settled (ttl.lookup kv.1)).ttl.lookup kv'.1 = none := by
      intro kv' hkv'
      rw [lookup_insert_ne (hne kv' hkv')]
      exact hfresh kv' (List.mem_cons_of_mem kv hkv')
    rw [List.foldl_cons, ih hnodup.2 hrest, view_insert (hfresh kv List.mem_cons_self)]
    by_cases hk : k = kv.1
    · subst hk
      have hnone : entries.dlookup kv.1 = none := List.dlookup_eq_none.2 hnodup.1
      rw [hnone, List.dlookup_cons_eq]
      exact Function.update_self _ _ _
    · rw [List.dlookup_cons_ne _ _ hk]
      cases entries.dlookup k with
      | some node => rfl
      | none => exact Function.update_of_ne hk _ _

lemma dropExpired_spec (TS : Nat) (keys : List Bytes) (c : Cache) (k : Bytes) :
    (c.dropExpired TS keys).cache.lookup k = (if k ∈ keys ∧ Past TS (c.ttl.lookup k) then none else c.cache.lookup k) ∧
    (c.dropExpired TS keys).ttl.lookup k = (if k ∈ keys ∧ Past TS (c.ttl.lookup k) then none else c.ttl.lookup k) := by
  induction keys generalizing c with
  | nil => simp [dropExpired]
  | cons key keys ih =>
    rw [dropExpired]
    by_cases hp : Past TS (c.ttl.lookup key)
    · rw [if_pos hp, (ih (c.erase key)).1, (ih (c.erase key)).2]
      by_cases hk : k = key
      · subst hk
        simp [erase, hp]
      · simp [erase, AList.lookup_erase_ne hk, hk]
    · rw [if_neg hp, (ih c).1, (ih c).2]
      by_cases hk : k = key
      · subst hk
        simp [hp]
      · simp [hk]

lemma view_dropExpired (TS : Nat) (c : Cache) : (c.dropExpired TS c.cache.keys).view = live TS c.view := by
  funext k
  have hspec := dropExpired_spec TS c.cache.keys c k
  simp only [live, view, hspec.1, hspec.2]
  cases hl : c.cache.lookup k with
  | none => simp
  | some node =>
    have hmem : k ∈ c.cache.keys := by
      rw [← AList.mem_keys, ← AList.lookup_isSome, hl]
      rfl
    by_cases hp : Past TS (c.ttl.lookup k)
    · simp [hmem, hp, Option.filter_some]
    · simp [hp, Option.filter_some]

lemma length_keys_dropExpired (TS : Nat) (keys : List Bytes) (c : Cache) :
    (c.dropExpired TS keys).cache.keys.length ≤ c.cache.keys.length := by
  induction keys generalizing c with
  | nil => exact le_rfl
  | cons key keys ih =>
    rw [dropExpired]
    by_cases hp : Past TS (c.ttl.lookup key)
    · rw [if_pos hp]
      apply (ih (c.erase key)).trans
      rw [show (c.erase key).cache.keys = _ from AList.keys_erase key c.cache]
      exact (@List.erase_sublist _ (_) key _).length_le
    · rw [if_neg hp]
      exact ih c

lemma lookup_of_dropExpired (h : (c.dropExpired TS keys).cache.lookup k = some node) :
    c.cache.lookup k = some node := by
  rw [(dropExpired_spec TS keys c k).1] at h
  exact (Option.ite_none_left_eq_some.1 h).2

lemma Sized.dropExpired (h : c.Sized) (TS : Nat) (keys : List Bytes) : (c.dropExpired TS keys).Sized where
  key_lt := by
    intro k hk
    obtain ⟨node, hnode⟩ := Option.isSome_iff_exists.1 hk
    exact h.key_lt k (Option.isSome_iff_exists.2 ⟨node, lookup_of_dropExpired hnode⟩)
  node_lt := fun k node hnode => h.node_lt k node (lookup_of_dropExpired hnode)
  ttl_lt := by
    intro k e he
    rw [(dropExpired_spec TS keys c k).2] at he
    exact h.ttl_lt k e (Option.ite_none_left_eq_some.1 he).2
  count_lt := lt_of_le_of_lt (length_keys_dropExpired TS keys c) h.count_lt

/-- What is put in has a value wherever it has an expiry. -/
lemma Tidy.insert (h : c.Tidy) (node : RedisNode) (t : Option Nat) : (c.insert k node t).Tidy := by
  cases t with
  | none => exact h.setValue node
  | some e =>
    apply Tidy.setTTLMSAt (h.setValue node)
    rw [Cache.setValue, AList.lookup_insert]
    rfl

lemma length_decimal_lt {n : Nat} (h : n < 2 ^ 63) : (decimal n).length < 2 ^ 63 := by
  have hdigits : (Nat.toDigits 10 n).length ≤ 19 :=
    (Nat.length_toDigits_le_iff (by decide) (by decide)).2 (lt_trans h (by decide))
  rw [decimal, List.length_map]
  exact lt_of_le_of_lt hdigits (by decide)

lemma auxFields_field {key value : Bytes} (hkey : key.length < 2 ^ 63) (hvalue : value.length < 2 ^ 63) (rounds : Nat)
    (b : UInt8) (s : Bytes) :
    auxFields (rounds + 1) 250 (encodedString key ++ (encodedString value ++ b :: s)) = auxFields rounds b s := by
  simp only [auxFields, if_true, readEncodedString_eq hkey, readEncodedString_eq hvalue, bind, Except.bind, get]

lemma auxFields_of_ne {b : UInt8} (h : b ≠ 250) (rounds : Nat) (s : Bytes) :
    auxFields (rounds + 1) b s = .ok (b, s) := by
  rw [auxFields, if_neg h]

/-- The file of a cache is loaded as its entries. -/
theorem load_dump (hs : ∀ k node, c.cache.lookup k = some node → node.Strings) (hsized : c.Sized) (hTS : TS < 2 ^ 63) :
    load (c.dump TS) empty = .ok (true, c.cache.entries.foldl
      (fun c' kv => c'.insert kv.1 kv.2.settled (c.ttl.lookup kv.1)) empty) := by
  have hmem : ∀ kv ∈ c.cache.entries, c.cache.lookup kv.1 = some kv.2 := fun kv hkv => AList.mem_lookup_iff.2 hkv
  have hcount : ofLeBytes (leBytes 8 c.cache.keys.length) = c.cache.entries.length := by
    rw [ofLeBytes_leBytes, Nat.mod_eq_of_lt (lt_of_lt_of_eq hsized.count_lt (by decide))]
    exact List.length_map _
  obtain ⟨b, hb⟩ := readEntries_eq c.ttl (fun kv hkv => hs kv.1 kv.2 (hmem kv hkv))
    (fun kv hkv => hsized.key_lt kv.1 (by rw [hmem kv hkv]; rfl)) (fun kv hkv => hsized.node_lt kv.1 kv.2 (hmem kv hkv))
    (fun kv _ e he => hsized.ttl_lt kv.1 e he) 251 [255] empty
  have htake : (c.dump TS).take 9 = header := by
    rw [dump]
    simp only [List.append_assoc]
    exact List.take_left' rfl
  have hdrop : (c.dump TS).drop 9 = 250 :: (encodedString (ascii "Timestamp(ms)") ++ (encodedString (decimal TS) ++
      254 :: 0 :: 251 :: (leBytes 8 c.cache.keys.length ++ (leBytes 8 c.ttl.keys.length ++
        (c.cache.entries.flatMap (fun kv => entryBytes c.ttl kv.1 kv.2) ++ [255]))))) := by
    rw [dump]
    simp only [List.append_assoc]
    rw [List.drop_left' (show header.length = 9 from rfl)]
    simp
  rw [load, htake, if_neg (not_not.2 rfl), hdrop]
  simp only
  rw [auxFields_field (by decide) (length_decimal_lt hTS), encodedString, List.append_assoc, List.length_append,
    length_leBytes, Nat.add_comm, auxFields_of_ne (by decide)]
  simp only [bind, Except.bind, loadDatabase, get, ne_eq, not_true, if_false, lengthOf]
  rw [List.take_left' (length_leBytes 8 _), List.drop_left' (length_leBytes 8 _), List.drop_left' (length_leBytes 8 _),
    hcount, hb]
  rfl

/-- A loaded cache has an expiry only where it has a value. -/
lemma tidy_foldl_insert (entries : List (Sigma (fun _ : Bytes => RedisNode))) (t : Bytes → Option Nat) (h : c.Tidy) :
    (entries.foldl (fun c kv => c.insert kv.1 kv.2.settled (t kv.1)) c).Tidy := by
  induction entries generalizing c with
  | nil => exact h
  | cons kv entries ih => exact ih (h.insert _ _)

lemma ttl_of_view (h : c.Tidy) (k : Bytes) : c.ttl.lookup k = (c.view k).bind (fun p => p.2) := by
  cases hl : c.cache.lookup k with
  | none => rw [view_eq_none hl, h k hl, Option.bind_none]
  | some node => rw [view_eq_some hl, Option.bind_some]

lemma cache_of_view (c : Cache) (k : Bytes) : c.cache.lookup k = (c.view k).map (fun p => p.1) := by
  cases hl : c.cache.lookup k with
  | none => rw [view_eq_none hl, Option.map_none]
  | some node => rw [view_eq_some hl, Option.map_some]

/-- What is saved is loaded: the entries that have not expired at the time of the save, with their values
and their expiries. -/
theorem load_save (env : Env) (c : Cache) (hs : ∀ k node, c.cache.lookup k = some node → node.Strings)
    (hsized : c.Sized) :
    ∃ c', load (c.save env).1 empty = .ok (true, c') ∧
      (∀ k, c'.cache.lookup k = (live (env.clock c.tick) c.view k).map (fun p => p.1.settled)) ∧
      ∀ k, c'.ttl.lookup k = (live (env.clock c.tick) c.view k).bind (fun p => p.2) := by
  let TS := env.clock c.tick
  let c₁ : Cache := ({ c with tick := c.tick + 1 } : Cache).dropExpired TS c.cache.keys
  have hview : c₁.view = live TS c.view := view_dropExpired TS { c with tick := c.tick + 1 }
  have hticked : ({ c with tick := c.tick + 1 } : Cache).Sized := ⟨hsized.1, hsized.2, hsized.3, hsized.4⟩
  have hsized₁ : c₁.Sized := hticked.dropExpired TS c.cache.keys
  have hs₁ : ∀ k node, c₁.cache.lookup k = some node → node.Strings := by
    intro k node h
    have hold := lookup_of_dropExpired h
    exact hs k node hold
  have hloaded := load_dump hs₁ hsized₁ (env.bound c.tick)
  have hentry : ∀ k, (c₁.cache.entries.foldl (fun c' kv => c'.insert kv.1 kv.2.settled (c₁.ttl.lookup kv.1))
    empty).view k
      = (c₁.view k).map (fun p => (p.1.settled, p.2)) := by
    intro k
    rw [view_foldl_insert c₁.cache.nodupKeys (fun _ _ => rfl)]
    change (match c₁.cache.lookup k with | some node => _ | none => _) = _
    cases hl : c₁.cache.lookup k with
    | none => rw [view_eq_none hl]; rfl
    | some node => rw [view_eq_some hl]; rfl
  have htidy := tidy_foldl_insert c₁.cache.entries (fun k => c₁.ttl.lookup k) (c := empty) (fun _ _ => rfl)
  refine ⟨_, hloaded, ?_, ?_⟩
  · intro k
    rw [cache_of_view, hentry, hview, Option.map_map]
    rfl
  · intro k
    rw [ttl_of_view htidy, hentry, hview]
    cases live TS c.view k with
    | none => rfl
    | some p => rfl

lemma ten_lt (_ : Nat) : 10 < 2 ^ 63 := by decide

/-- A clock that stands still. -/
def still : Env where
  clock := fun _ => 10
  strayEnd := fun _ _ => none
  mono := monotone_const
  bound := ten_lt

/-- An expired string, a string with a line end and an expiry to come, and a list. -/
def sample : Cache :=
  ((empty.insert (ascii "a") (.variant (.ofStr (ascii "1"))) (some 5)).insert (ascii "b")
    (.variant (.ofStr (ascii "x" ++ SEP ++ [0, 255]))) (some 20)).insert (ascii "c")
    (.aggregate [.ofStr (ascii "$"), .ofStr []]) none

theorem load_save_sample :
    ∃ c', load (sample.save still).1 empty = .ok (true, c') ∧
      (∀ k, c'.cache.lookup k = (live (still.clock sample.tick) sample.view k).map (fun p => p.1.settled)) ∧
      ∀ k, c'.ttl.lookup k = (live (still.clock sample.tick) sample.view k).bind (fun p => p.2) := by
  have hcache : ∀ k node, sample.cache.lookup k = some node → (⟨k, node⟩ : Sigma (fun _ : Bytes => RedisNode)) ∈
      sample.cache.entries := fun k node h => AList.mem_lookup_iff.1 h
  have hentries : ∀ kv ∈ sample.cache.entries, kv.2.Strings ∧ kv.1.length < 2 ^ 63 ∧ kv.2.serialize.length <
    2 ^ 63 := by
    have hstr : ∀ token, StringNode (.ofStr token) := fun token => ⟨token, rfl, Or.inl rfl⟩
    have heq : sample.cache.entries = [⟨ascii "c", .aggregate [.ofStr (ascii "$"), .ofStr []]⟩,
      ⟨ascii "b", .variant (.ofStr (ascii "x" ++ SEP ++ [0, 255]))⟩, ⟨ascii "a", .variant (.ofStr (ascii "1"))⟩] := rfl
    rw [heq]
    simp only [List.forall_mem_cons, List.not_mem_nil, false_imp_iff, implies_true, and_true, RedisNode.Strings, hstr,
      true_and]
    decide
  have httl : ∀ kv ∈ sample.ttl.entries, kv.2 < 2 ^ 64 := by decide
  exact load_save still sample (fun k node h => (hentries _ (hcache k node h)).1)
    ⟨fun k h => by
      obtain ⟨node, hnode⟩ := Option.isSome_iff_exists.1 h
      exact (hentries _ (hcache k node hnode)).2.1,
    fun k node h => (hentries _ (hcache k node h)).2.2,
    fun k e h => httl ⟨k, e⟩ (AList.mem_lookup_iff.1 h), by decide⟩

end Cache

end CppExperiments.Redis
