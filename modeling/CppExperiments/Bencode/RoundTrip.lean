import CppExperiments.Bencode.Reading

/-!
# Encoding and decoding

Trees are read back from their encoding, and canonical texts are what the encoder makes of the tree they are read as,
as long as no dictionary has the empty key, which the encoder takes for none.
-/

namespace CppExperiments.Bencode

open Json

variable {ign : Bool} {s : Bytes} {node : Node}

/-! ## Numerals -/

lemma lenText_decimal {n : Nat} (h : n < 2 ^ 64) : LenText (decimal n) n := by
  obtain ⟨b, hb, hdigit⟩ := head?_decimal n
  exact ⟨by rw [hb]; exact hdigit, not_mem_decimal rfl n, stoull_decimal h⟩

lemma intText_decimalInt (v : Int64) : IntText (decimalInt v.toInt) v := by
  constructor
  · cases v.toInt with
    | ofNat n => exact not_mem_decimal rfl n
    | negSucc n =>
      rw [decimalInt, List.mem_cons, not_or]
      exact ⟨by decide, not_mem_decimal rfl (n + 1)⟩
  · have hlong : InLong v.toInt := ⟨v.le_toInt, v.toInt_lt⟩
    rw [stoll, integerPrefix_decimalInt, Option.filter_some, if_pos (decide_eq_true hlong), Option.map_some,
      Int64.ofInt_toInt]

/-! ## Lists and dictionaries -/

variable {α : Type} {l : List α} {value : α → Node} {text : α → Bytes} {key : Bytes}

lemma encodeEach_map {sortKeys skipKey : Bool}
    (h : ∀ a ∈ l, encode sortKeys skipKey (value a) = some (encodeKey skipKey (value a).key ++ text a)) :
    encodeEach sortKeys skipKey (l.map value) =
      some (l.map fun a => ((value a).key, encodeKey skipKey (value a).key ++ text a)) := by
  induction l with
  | nil => rfl
  | cons a l ih =>
    rw [List.forall_mem_cons] at h
    rw [List.map_cons, encodeEach, h.1, ih h.2]
    rfl

lemma encode_list (value : α → Node) {sortKeys : Bool} (skipKey : Bool) (key : Bytes)
    (h : ∀ a ∈ l, encode sortKeys true (value a) = some (encodeKey true (value a).key ++ text a)) :
    encode sortKeys skipKey (.array key (l.map value)) =
      some (encodeKey skipKey key ++ (108 :: l.flatMap text ++ [101])) := by
  have hskip : ∀ key, encodeKey true key = [] := fun key => if_neg (by simp)
  rw [encode, encodeEach_map h]
  simp [hskip, List.flatMap, Function.comp_def]

/-- The members are printed in their order, if this is what is asked for. -/
lemma encode_dict (value : α → Node) {sortKeys : Bool} (skipKey : Bool) (key : Bytes)
    (hsorted : sortKeys = true → l.Pairwise fun a a' => (value a).key < (value a').key)
    (h : ∀ a ∈ l, encode sortKeys false (value a) = some (encodeKey false (value a).key ++ text a)) :
    encode sortKeys skipKey (.object key (l.map value)) = some (encodeKey skipKey key ++
      (100 :: l.flatMap (fun a => encodeKey false (value a).key ++ text a) ++ [101])) := by
  have horder : inOrder sortKeys (l.map fun a => ((value a).key, encodeKey false (value a).key ++ text a)) =
      l.map fun a => ((value a).key, encodeKey false (value a).key ++ text a) := by
    rw [inOrder]
    split
    · rename_i hsort
      refine List.mergeSort_of_pairwise (List.pairwise_map.2 ((hsorted hsort).imp fun hlt => ?_))
      exact decide_eq_true (List.le_of_lt hlt)
    · rfl
  rw [encode, encodeEach_map h]
  simp [horder, List.flatMap, Function.comp_def]

lemma item_list (h : ∀ a ∈ l, Item [] (text a) (value a)) :
    Item key (108 :: l.flatMap text ++ [101]) (.array key (l.map value)) := by
  have hlist : Item key (108 :: (l.map fun a => (text a, value a)).flatMap Prod.fst ++ [101])
      (.array key ((l.map fun a => (text a, value a)).map Prod.snd)) := by
    refine .list fun x hx => ?_
    obtain ⟨a, ha, rfl⟩ := List.mem_map.1 hx
    exact h a ha
  rwa [List.flatMap_map, List.map_map] at hlist

lemma item_dict (hnodup : (l.map fun a => (value a).key).Nodup) (hlen : ∀ a ∈ l, (value a).key.length < 2 ^ 64)
    (h : ∀ a ∈ l, Item (value a).key (text a) (value a)) :
    Item key (100 :: l.flatMap (fun a => lengthPrefixed (value a).key ++ text a) ++ [101])
      (.object key (l.map value)) := by
  let entry : α → Entry := fun a => ⟨decimal (value a).key.length, (value a).key, text a, value a⟩
  have hdict : Item key (100 :: (l.map entry).flatMap Entry.bytes ++ [101])
      (.object key (((l.map entry).map Entry.node).foldl Node.place [])) := by
    refine .dict ?_ ?_
    · intro e he
      obtain ⟨a, ha, rfl⟩ := List.mem_map.1 he
      exact lenText_decimal (hlen a ha)
    · intro e he _
      obtain ⟨a, ha, rfl⟩ := List.mem_map.1 he
      exact h a ha
  rw [Node.foldl_place (by simpa [Function.comp_def, entry] using hnodup), List.nil_append, List.flatMap_map,
    List.map_map] at hdict
  exact hdict

lemma length_le_of_mem {a : α} (h : a ∈ l) (f : α → Bytes) : (f a).length ≤ (l.flatMap f).length :=
  (List.sublist_flatten_of_mem (List.mem_map_of_mem h)).length_le

/-! ## Trees -/

/-- Trees of strings, integers, lists and dictionaries. -/
inductive Tree : Node → Prop where
  | str {key s : Bytes} : Tree (.value key (.str s))
  | int {key : Bytes} {v : Int64} : Tree (.value key (.int v))
  | list {key : Bytes} {values : List Node} : (∀ n ∈ values, n.key = []) → (∀ n ∈ values, Tree n) →
      Tree (.array key values)
  | dict {key : Bytes} {values : List Node} : (∀ n ∈ values, n.key ≠ []) → (values.map Node.key).Nodup →
      (∀ n ∈ values, Tree n) → Tree (.object key values)

/-- The encoding of a tree is a text that is read as the tree. -/
theorem Tree.exists_text (h : Tree node) : ∃ text : Bytes,
    (∀ skipKey, encode false skipKey node = some (encodeKey skipKey node.key ++ text)) ∧
    (text.length < 2 ^ 64 → Item node.key text node) := by
  induction h with
  | @str key s =>
    refine ⟨lengthPrefixed s, fun skipKey => by rw [encode]; rfl, fun hlen => .str (lenText_decimal ?_)⟩
    rw [lengthPrefixed, List.length_append, List.length_cons] at hlen
    omega
  | @int key v =>
    exact ⟨105 :: decimalInt v.toInt ++ [101], fun skipKey => by rw [encode]; rfl, fun _ => .int (intText_decimalInt v)⟩
  | @list key values hkeys _ ih =>
    choose! text henc hitem using ih
    refine ⟨108 :: values.flatMap text ++ [101], fun skipKey => ?_, fun hlen => ?_⟩
    · have hlist := encode_list id skipKey key fun n hn => henc n hn true
      rwa [List.map_id] at hlist
    · rw [List.length_append, List.length_cons] at hlen
      have hlist : Item key (108 :: values.flatMap text ++ [101]) (.array key (values.map id)) := by
        refine item_list fun n hn => ?_
        have hle := length_le_of_mem hn text
        exact hkeys n hn ▸ hitem n hn (by omega)
      rwa [List.map_id] at hlist
  | @dict key values hkeys hnodup _ ih =>
    choose! text henc hitem using ih
    have hkey : ∀ n ∈ values, encodeKey false n.key = lengthPrefixed n.key := fun n hn => if_pos ⟨hkeys n hn, rfl⟩
    refine ⟨100 :: values.flatMap (fun n => lengthPrefixed n.key ++ text n) ++ [101], fun skipKey => ?_, fun hlen => ?_⟩
    · have hdict := encode_dict id skipKey key (fun h => absurd h (by decide)) fun n hn => henc n hn false
      rw [List.map_id] at hdict
      rw [hdict, List.flatMap_congr fun n hn => by rw [id, hkey n hn]]
      rfl
    · rw [List.length_append, List.length_cons] at hlen
      have hle : ∀ n ∈ values, n.key.length + (text n).length < 2 ^ 64 := by
        intro n hn
        have hle := length_le_of_mem hn (fun n => lengthPrefixed n.key ++ text n)
        rw [List.length_append, lengthPrefixed, List.length_append, List.length_cons] at hle
        omega
      have hdict : Item key (100 :: values.flatMap (fun n => lengthPrefixed n.key ++ text n) ++ [101])
          (.object key (values.map id)) := by
        refine item_dict hnodup (fun n hn => ?_) fun n hn => hitem n hn ?_
        · exact lt_of_le_of_lt (Nat.le_add_right _ _) (hle n hn)
        · exact lt_of_le_of_lt (Nat.le_add_left _ _) (hle n hn)
      rwa [List.map_id] at hdict

/-- Every tree is encoded, and its encoding is decoded to it. -/
theorem returns_encode (h : Tree node) (hkey : node.key = []) : ∃ s, encode false true node = some s ∧
    (s.length < 2 ^ 64 → Returns s ign node) := by
  obtain ⟨text, henc, hitem⟩ := h.exists_text
  have henc := henc true
  rw [encodeKey, if_neg (by simp), List.nil_append] at henc
  exact ⟨text, henc, fun hlen => (hkey ▸ hitem hlen).returns hlen⟩

section SmallTree

/-- A dictionary of a list and an integer, not in the order of their keys. -/
def smallTree : Node :=
  .object [] [.array (ascii "b") [.value [] (.str (ascii "x")), .value [] (.int (-1))], .value (ascii "a") (.int 0)]

lemma tree_smallTree : Tree smallTree := by
  refine .dict (by decide) (by decide) ?_
  simp only [List.forall_mem_cons]
  refine ⟨.list (by decide) ?_, .int, by simp⟩
  simp only [List.forall_mem_cons]
  exact ⟨.str, .int, by simp⟩

theorem returns_encode_smallTree : ∃ s, encode false true smallTree = some s ∧ Returns s true smallTree := by
  obtain ⟨s, henc, hreturns⟩ := @returns_encode true smallTree tree_smallTree rfl
  have hs : encode false true smallTree = some (ascii "d1:bl1:xi-1ee1:ai0ee") := by rfl
  obtain rfl := Option.some.inj (henc.symm.trans hs)
  exact ⟨_, henc, hreturns (by decide)⟩

end SmallTree

/-! ## Canonical texts -/

/-- The canonical texts of values, with sorted keys that satisfy `K`. -/
inductive Canonical (K : Bytes → Prop) : Bytes → Prop where
  | int {v : Int64} : Canonical K (105 :: decimalInt v.toInt ++ [101])
  | str {s : Bytes} : Canonical K (lengthPrefixed s)
  | list {items : List Bytes} : (∀ t ∈ items, Canonical K t) → Canonical K (108 :: items.flatten ++ [101])
  | dict {entries : List (Bytes × Bytes)} : entries.Pairwise (fun e e' => e.1 < e'.1) → (∀ e ∈ entries, K e.1) →
      (∀ e ∈ entries, Canonical K e.2) →
      Canonical K (100 :: entries.flatMap (fun e => lengthPrefixed e.1 ++ e.2) ++ [101])

lemma length_flatMap_le {f g : α → Bytes} (h : ∀ a ∈ l, (f a).length ≤ (g a).length) :
    (l.flatMap f).length ≤ (l.flatMap g).length := by
  induction l with
  | nil => exact le_rfl
  | cons a l ih =>
    rw [List.forall_mem_cons] at h
    have hle := ih h.2
    have hfirst := h.1
    rw [List.flatMap_cons, List.flatMap_cons, List.length_append, List.length_append]
    omega

/-- Parts that are no longer one by one and no shorter as a whole have the same lengths. -/
lemma le_of_length_flatMap_le {f g : α → Bytes} (h : ∀ a ∈ l, (f a).length ≤ (g a).length)
    (hall : (l.flatMap g).length ≤ (l.flatMap f).length) : ∀ a ∈ l, (g a).length ≤ (f a).length := by
  induction l with
  | nil => simp
  | cons a l ih =>
    rw [List.forall_mem_cons] at h ⊢
    have hle := length_flatMap_le h.2
    have hfirst := h.1
    rw [List.flatMap_cons, List.flatMap_cons, List.length_append, List.length_append] at hall
    exact ⟨by omega, ih h.2 (by omega)⟩

lemma length_encodeKey_le (key : Bytes) : (encodeKey false key).length ≤ (lengthPrefixed key).length := by
  rw [encodeKey]
  split
  · exact le_rfl
  · exact Nat.zero_le _

lemma encodeKey_of_length (h : (lengthPrefixed s).length ≤ (encodeKey false s).length) : s ≠ [] := by
  rintro rfl
  simp [encodeKey, lengthPrefixed] at h

variable {K : Bytes → Prop}

/-- What a canonical text is read as, and what the encoder makes of it again: the same text if there is no empty key,
and a shorter one if there is. -/
theorem Canonical.exists_node (h : Canonical K s) (hlen : s.length < 2 ^ 64) : ∃ (node : Bytes → Node) (s' : Bytes),
    (∀ k, (node k).key = k ∧ Item k s (node k) ∧
      ∀ skipKey, encode true skipKey (node k) = some (encodeKey skipKey k ++ s')) ∧
    s'.length ≤ s.length ∧ ((∀ k, K k → k ≠ []) → s' = s) ∧ (s.length ≤ s'.length → Canonical (fun k => k ≠ []) s) := by
  induction h with
  | @int v =>
    exact ⟨fun k => .value k (.int v), _,
      fun k => ⟨rfl, .int (intText_decimalInt v), fun skipKey => by rw [encode]; rfl⟩,
      le_rfl, fun _ => rfl, fun _ => .int⟩
  | @str s =>
    rw [lengthPrefixed, List.length_append, List.length_cons] at hlen
    exact ⟨fun k => .value k (.str s), _, fun k => ⟨rfl, .str (lenText_decimal (by omega)), fun skipKey => by
      rw [encode]; rfl⟩, le_rfl, fun _ => rfl, fun _ => .str⟩
  | @list items _ ih =>
    have hshort : ∀ t ∈ items, t.length < 2 ^ 64 := by
      intro t ht
      have hle := (List.sublist_flatten_of_mem ht).length_le
      rw [List.length_append, List.length_cons] at hlen
      omega
    have ih := fun t ht => ih t ht (hshort t ht)
    choose! node out hnode hle heq hkeys using ih
    have hflat : items.flatten = items.flatMap id := by rw [List.flatMap_id]
    refine ⟨fun k => .array k (items.map fun t => node t []), 108 :: items.flatMap out ++ [101], fun k => ⟨rfl, ?_, ?_⟩,
      ?_, ?_, ?_⟩
    · rw [hflat]
      exact item_list fun t ht => (hnode t ht []).2.1
    · intro skipKey
      refine encode_list (fun t => node t []) skipKey k fun t ht => ?_
      rw [(hnode t ht []).1]
      exact (hnode t ht []).2.2 true
    · rw [hflat]
      simpa using length_flatMap_le hle
    · intro hK
      rw [hflat, List.flatMap_congr fun t ht => heq t ht hK]
      rfl
    · intro hall
      refine .list fun t ht => hkeys t ht (le_of_length_flatMap_le hle ?_ t ht)
      rw [hflat] at hall
      simpa using hall
  | @dict entries hsorted hK _ ih =>
    have hshort : ∀ e ∈ entries, e.1.length + e.2.length < 2 ^ 64 := by
      intro e he
      have hle := length_le_of_mem he (fun e => lengthPrefixed e.1 ++ e.2)
      rw [List.length_append, lengthPrefixed, List.length_append, List.length_cons] at hle
      rw [List.length_append, List.length_cons] at hlen
      omega
    have ih := fun e he => ih e he (lt_of_le_of_lt (Nat.le_add_left _ _) (hshort e he))
    choose! node out hnode hle heq hkeys using ih
    have hkey : ∀ e ∈ entries, (node e e.1).key = e.1 := fun e he => (hnode e he e.1).1
    have hmember : ∀ e ∈ entries, (encodeKey false e.1 ++ out e).length ≤ (lengthPrefixed e.1 ++ e.2).length := by
      intro e he
      rw [List.length_append, List.length_append]
      exact Nat.add_le_add (length_encodeKey_le e.1) (hle e he)
    refine ⟨fun k => .object k (entries.map fun e => node e e.1),
      100 :: entries.flatMap (fun e => encodeKey false e.1 ++ out e) ++ [101], fun k => ⟨rfl, ?_, ?_⟩, ?_, ?_, ?_⟩
    · have hdict : Item k (100 :: entries.flatMap (fun e => lengthPrefixed (node e e.1).key ++ e.2) ++ [101])
          (.object k (entries.map fun e => node e e.1)) := by
        refine item_dict ?_ ?_ ?_
        · rw [List.map_congr_left hkey]
          refine List.pairwise_map.2 (hsorted.imp fun {e e'} hlt heq => ?_)
          rw [heq] at hlt
          exact List.lt_irrefl _ hlt
        · intro e he
          rw [hkey e he]
          exact lt_of_le_of_lt (Nat.le_add_right _ _) (hshort e he)
        · intro e he
          rw [hkey e he]
          exact (hnode e he e.1).2.1
      rwa [List.flatMap_congr fun e he => by rw [hkey e he]] at hdict
    · intro skipKey
      have hdict : encode true skipKey (.object k (entries.map fun e => node e e.1)) = some (encodeKey skipKey k ++
          (100 :: entries.flatMap (fun e => encodeKey false (node e e.1).key ++ out e) ++ [101])) := by
        refine encode_dict (fun e => node e e.1) skipKey k (fun _ => ?_) fun e he => ?_
        · refine hsorted.imp_of_mem fun {e e'} he he' hlt => ?_
          rwa [hkey e he, hkey e' he']
        · rw [hkey e he]
          exact (hnode e he e.1).2.2 false
      rwa [List.flatMap_congr fun e he => by rw [hkey e he]] at hdict
    · simpa using length_flatMap_le hmember
    · intro hnonempty
      have hpreed : ∀ e ∈ entries, encodeKey false e.1 = lengthPrefixed e.1 :=
        fun e he => if_pos ⟨hnonempty e.1 (hK e he), rfl⟩
      rw [List.flatMap_congr fun e he => by rw [hpreed e he, heq e he hnonempty]]
    · intro hall
      have hparts := le_of_length_flatMap_le hmember (by simpa using hall)
      simp only [List.length_append] at hparts
      refine .dict hsorted (fun e he => encodeKey_of_length ?_) fun e he => hkeys e he ?_
      · have := hparts e he
        have := hle e he
        omega
      · have := hparts e he
        have := length_encodeKey_le e.1
        omega

/-- A canonical text is decoded, and what it is decoded to is encoded to the same text exactly if no dictionary in it
has the empty key. -/
theorem encode_decode_iff (h : Canonical (fun _ => True) s) (hlen : s.length < 2 ^ 64) :
    (∃ node, Returns s ign node ∧ encode true true node = some s) ↔ Canonical (fun k => k ≠ []) s := by
  have hskip : ∀ k, encodeKey true k = [] := fun k => if_neg (by simp)
  constructor
  · rintro ⟨n, hreturns, henc⟩
    obtain ⟨node, s', hnode, -, -, hkeys⟩ := h.exists_node hlen
    obtain rfl := hreturns.unique ((hnode []).2.1.returns hlen)
    have henc' := (hnode []).2.2 true
    rw [hskip, List.nil_append, henc] at henc'
    rw [← Option.some.inj henc'] at hkeys
    exact hkeys le_rfl
  · intro hcanonical
    obtain ⟨node, s', hnode, -, heq, -⟩ := hcanonical.exists_node hlen
    have henc := (hnode []).2.2 true
    rw [hskip, List.nil_append, heq fun _ hk => hk] at henc
    exact ⟨node [], (hnode []).2.1.returns hlen, henc⟩

section Keys

lemma canonical_single {K : Bytes → Prop} {key : Bytes} (hkey : K key) (v : Int64) :
    Canonical K (100 :: (lengthPrefixed key ++ (105 :: decimalInt v.toInt ++ [101])) ++ [101]) := by
  have hdict : Canonical K (100 :: [(key, 105 :: decimalInt v.toInt ++ [101])].flatMap
      (fun e => lengthPrefixed e.1 ++ e.2) ++ [101]) :=
    .dict (List.pairwise_singleton _ _) (by simpa using hkey) (by simpa using .int)
  rwa [List.flatMap_singleton] at hdict

theorem encode_decode_iff_single :
    (∃ node, Returns (ascii "d1:ai5ee") true node ∧ encode true true node = some (ascii "d1:ai5ee")) ↔
      Canonical (fun k => k ≠ []) (ascii "d1:ai5ee") :=
  encode_decode_iff (@canonical_single _ (ascii "a") trivial 5) (by decide)

/-- The empty key is lost. -/
theorem not_encode_decode_emptyKey : ¬ ∀ s, Canonical (fun _ => True) s → s.head? = some 100 → s.length < 2 ^ 64 →
    ∃ node, Returns s true node ∧ encode true true node = some s := by
  intro h
  obtain ⟨n, hreturns, henc⟩ := h (ascii "d0:i5ee") (@canonical_single _ [] trivial 5) rfl (by decide)
  have hread : Returns (ascii "d0:i5ee") true (.object [] [.value [] (.int 5)]) := ⟨⟨6, _⟩, ⟨3, rfl⟩, rfl⟩
  obtain rfl := hreturns.unique hread
  have hlost := @encode_dict Node [.value [] (.int 5)] (fun _ => ascii "i5e") id true true [] (by simp) (by simp; rfl)
  rw [List.map_id, henc] at hlost
  exact absurd (Option.some.inj hlost) (by decide)

end Keys

end CppExperiments.Bencode
