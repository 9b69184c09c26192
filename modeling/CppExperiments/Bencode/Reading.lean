import CppExperiments.Bencode.Codec

/-!
# What the decoder reads

The texts of values as the decoder takes them, with the nodes it makes of them, and the turns it takes over such a text
wherever it stands.
-/

namespace CppExperiments.Bencode

open Json

/-! ## Texts -/

/-- What stands between `i` and the next `e`. -/
def IntText (t : Bytes) (v : Int64) : Prop := 101 ∉ t ∧ (stoll t).map Int64.ofInt = some v

/-- What stands in front of the next `:` and begins with a digit. -/
def LenText (t : Bytes) (n : Nat) : Prop := (t.head?.any isDigit) ∧ 58 ∉ t ∧ stoull t = some n

/-- A member of a dictionary: its key with the length in front, and the text of its value. -/
structure Entry where
  lenText : Bytes
  key : Bytes
  text : Bytes
  node : Node

def Entry.keyBytes (e : Entry) : Bytes := e.lenText ++ 58 :: e.key

def Entry.bytes (e : Entry) : Bytes := e.keyBytes ++ e.text

/-- An end marker in place of the value. -/
def Entry.Dangling (e : Entry) : Prop := e.text = [101] ∧ e.node = .value e.key .null

/-- The text of a value, and the node that it is read as under a key. -/
inductive Item : Bytes → Bytes → Node → Prop where
  | int {k t : Bytes} {v : Int64} : IntText t v → Item k (105 :: t ++ [101]) (.value k (.int v))
  | str {k t content : Bytes} : LenText t content.length → Item k (t ++ 58 :: content) (.value k (.str content))
  | list {k : Bytes} {items : List (Bytes × Node)} : (∀ x ∈ items, Item [] x.1 x.2) →
      Item k (108 :: items.flatMap Prod.fst ++ [101]) (.array k (items.map Prod.snd))
  | dict {k : Bytes} {entries : List Entry} : (∀ e ∈ entries, LenText e.lenText e.key.length) →
      (∀ e ∈ entries, ¬ e.Dangling → Item e.key e.text e.node) →
      Item k (100 :: entries.flatMap Entry.bytes ++ [101]) (.object k ((entries.map Entry.node).foldl Node.place []))

variable {encoded t content rest : Bytes} {ign : Bool} {idx n : Nat} {stk stk' : List Node} {k : Bytes} {node : Node}
  {v : Int64} {b : UInt8}

/-- What ends an integer. -/
def Stops (b : UInt8) : Prop := isDigit b = false ∧ isSpace b = false ∧ b ≠ 43 ∧ b ≠ 45

lemma takeWhile_isDigit_append (h : isDigit b = false) (t rest : Bytes) :
    (t ++ b :: rest).takeWhile isDigit = t.takeWhile isDigit := by
  induction t with
  | nil => simp [h]
  | cons c t ih =>
    rw [List.cons_append, List.takeWhile_cons, List.takeWhile_cons, ih]

lemma digitPrefix_append (h : isDigit b = false) (t rest : Bytes) : digitPrefix (t ++ b :: rest) = digitPrefix t := by
  rw [digitPrefix, digitPrefix, takeWhile_isDigit_append h]

lemma signedPrefix_append (h : Stops b) (t rest : Bytes) : signedPrefix (t ++ b :: rest) = signedPrefix t := by
  cases t with
  | nil => simp [signedPrefix, h.2.2.2, digitPrefix, h.1]
  | cons c t =>
    simp only [signedPrefix, List.cons_append, List.head?_cons, List.tail_cons, digitPrefix_append h.1]
    rw [← List.cons_append, digitPrefix_append h.1]
    rfl

/-- What stands behind the end of an integer does not matter. -/
lemma integerPrefix_append (h : Stops b) (t rest : Bytes) : integerPrefix (t ++ b :: rest) = integerPrefix t := by
  have hdrop : (t ++ b :: rest).dropWhile isSpace = t.dropWhile isSpace ++ b :: rest := by
    rw [List.dropWhile_append]
    split
    · rename_i hnil
      rw [List.isEmpty_iff.1 hnil, List.nil_append, List.dropWhile_cons_of_neg (by simp [h.2.1])]
    · rfl
  simp only [integerPrefix, hdrop, signedPrefix_append h]
  cases hcs : t.dropWhile isSpace with
  | nil => simp [h.2.2.1, signedPrefix, digitPrefix]
  | cons c cs =>
    simp only [List.cons_append, List.head?_cons, List.tail_cons, digitPrefix_append h.1]
    rfl

lemma stops_end : Stops 101 := ⟨rfl, rfl, by decide, by decide⟩

lemma stops_colon : Stops 58 := ⟨rfl, rfl, by decide, by decide⟩

lemma stoll_append (h : Stops b) (t rest : Bytes) : stoll (t ++ b :: rest) = stoll t := by
  rw [stoll, integerPrefix_append h, ← stoll]

lemma stoull_append (h : Stops b) (t rest : Bytes) : stoull (t ++ b :: rest) = stoull t := by
  rw [stoull, integerPrefix_append h, ← stoull]

/-! ## Turns -/

lemma lt_length_of_drop {front : Bytes} (h : encoded.drop idx = front ++ b :: rest) :
    idx + front.length < encoded.length := by
  have hlen := congrArg List.length h
  rw [List.length_drop, List.length_append, List.length_cons] at hlen
  omega

lemma lt_length_of_cons (h : encoded.drop idx = b :: rest) : idx < encoded.length := by
  have hlen := congrArg List.length h
  rw [List.length_drop, List.length_cons] at hlen
  omega

lemma lt_length_of_str (h : encoded.drop idx = t ++ b :: (content ++ rest)) :
    idx + (t.length + content.length) < encoded.length := by
  have hlen := congrArg List.length h
  rw [List.length_drop, List.length_append, List.length_cons, List.length_append] at hlen
  omega

lemma findFrom_eq (h : encoded.drop idx = t ++ b :: rest) (hb : b ∉ t) :
    findFrom b encoded idx = some (idx + t.length) := by
  have hfind := @find_append [] t b hb rest
  rw [List.append_assoc, List.singleton_append] at hfind
  rw [findFrom, h, hfind]
  rfl

lemma next_eq (hlen : encoded.length < 2 ^ 64) (h : idx < encoded.length) (stk : List Node) :
    next idx (some stk) = .on ⟨idx + 1, stk⟩ := by
  rw [next, Nat.mod_eq_of_lt (by omega)]

/-- The text that an integer is read from, which goes on behind its end. -/
lemma stoll_substr (h : encoded.drop idx = 105 :: t ++ 101 :: rest) :
    stoll (substr encoded (idx + 1) (idx + (t.length + 1))) = stoll t := by
  have hrest : encoded.drop (idx + 1) = t ++ 101 :: rest := drop_succ h
  rw [substr, hrest, show idx + (t.length + 1) = t.length + (idx + 1) by omega, List.take_length_add_append,
    List.take_succ_cons, stoll_append stops_end]

/-- The text that a length is read from. -/
lemma stoull_substr (h : encoded.drop idx = t ++ 58 :: rest) :
    stoull (substr encoded idx (idx + t.length)) = stoull t := by
  rw [substr, h, Nat.add_comm, List.take_length_add_append]
  cases idx with
  | zero => rw [List.take_zero, List.append_nil]
  | succ idx => rw [List.take_succ_cons, stoull_append stops_colon]

/-- An integer is read. -/
lemma turn_int (ign : Bool) (h : encoded.drop idx = 105 :: t ++ 101 :: rest) (ht : IntText t v)
    (hstk : topIsObject stk = false) :
    turn encoded ign ⟨idx, stk⟩ = next (idx + (t.length + 1)) (insertInt v stk) := by
  have hch := getElem?_of_drop h
  have hfind : findFrom 101 encoded idx = some (idx + (t.length + 1)) := findFrom_eq h (by simp [ht.1])
  have hsub := stoll_substr h
  obtain ⟨z, hz, rfl⟩ := Option.map_eq_some_iff.1 ht.2
  simp only [turn, hch]
  rw [if_neg (by simp), if_neg (by decide), if_neg (by decide), if_pos trivial]
  simp only [turnInt, hfind, hstk, hsub, hz]
  rfl

lemma turn_digit {ch : UInt8} (ign : Bool) (stk : List Node) (hch : encoded[idx]? = some ch)
    (hdigit : isDigit ch = true) :
    turn encoded ign ⟨idx, stk⟩ = turnStr encoded ⟨idx, stk⟩ := by
  have hnot : ∀ c : UInt8, isDigit c = false → ch ≠ c := by
    rintro c hc rfl
    rw [hdigit] at hc
    cases hc
  simp only [turn, hch]
  rw [if_neg (by simp [hnot 100 rfl, hnot 108 rfl]), if_neg (hnot 100 rfl), if_neg (hnot 108 rfl),
    if_neg (hnot 105 rfl), if_pos hdigit]

/-- A string is read. -/
lemma turn_str (ign : Bool) (stk : List Node) (hlen : encoded.length < 2 ^ 64)
    (h : encoded.drop idx = t ++ 58 :: (content ++ rest)) (ht : LenText t content.length) :
    turn encoded ign ⟨idx, stk⟩ = next (idx + (t.length + content.length)) (insertStr content stk) := by
  obtain ⟨hhead, hcolon, hvalue⟩ := ht
  obtain ⟨ch, t', rfl⟩ : ∃ ch t', t = ch :: t' := by
    cases t with
    | nil => simp at hhead
    | cons ch t' => exact ⟨ch, t', rfl⟩
  have hdigit : isDigit ch = true := by simpa using hhead
  have hfind : findFrom 58 encoded idx = some (idx + (ch :: t').length) := findFrom_eq h hcolon
  have hsub := (stoull_substr h).trans hvalue
  have hrest : encoded.drop (idx + (ch :: t').length + 1) = content ++ rest := drop_succ (drop_add h)
  have hend : idx + (ch :: t').length + 1 + content.length ≤ encoded.length := by
    have hl := congrArg List.length hrest
    have hlt := lt_length_of_drop h
    rw [List.length_drop, List.length_append] at hl
    omega
  have hcontent : substr encoded (idx + (ch :: t').length + 1) content.length = content := by
    rw [substr, hrest, List.take_left]
  rw [turn_digit ign stk (getElem?_of_drop h) hdigit]
  simp only [turnStr, hfind, hsub, hcontent]
  rw [if_neg (by rw [Nat.mod_eq_of_lt (by omega)]; omega), Nat.mod_eq_of_lt (by omega), Nat.add_assoc]

/-- A list is opened. -/
lemma turn_list (ign : Bool) (h : encoded.drop idx = 108 :: rest) (hstk : topIsObject stk = false) :
    turn encoded ign ⟨idx, stk⟩ = next idx (some (.array [] [] :: stk)) := by
  simp only [turn, getElem?_of_drop h, hstk]
  rw [if_neg (by simp), if_neg (by decide), if_pos trivial]

/-- A dictionary is opened. -/
lemma turn_dict (ign : Bool) (h : encoded.drop idx = 100 :: rest) (hstk : topIsObject stk = false) :
    turn encoded ign ⟨idx, stk⟩ = next idx (some (.object [] [] :: stk)) := by
  simp only [turn, getElem?_of_drop h, hstk]
  rw [if_neg (by simp), if_pos trivial]

lemma turn_end (h : encoded.drop idx = 101 :: rest) : turn encoded ign ⟨idx, stk⟩ = turnEnd encoded ⟨idx, stk⟩ := by
  simp only [turn, getElem?_of_drop h]
  rw [if_neg (by simp), if_neg (by decide), if_neg (by decide), if_neg (by decide), if_neg (by decide),
    if_pos trivial]

/-- A container that is not the last one is closed. -/
lemma turn_close (ign : Bool) (node : Node) (h : encoded.drop idx = 101 :: rest) (hrest : rest ≠ []) (hstk : stk ≠ []) :
    turn encoded ign ⟨idx, node :: stk⟩ = next idx (close node stk) := by
  have hlen := congrArg List.length h
  have hpos := List.length_pos_iff.2 hrest
  have hstkpos := List.length_pos_iff.2 hstk
  rw [List.length_drop, List.length_cons] at hlen
  rw [turn_end h]
  simp only [turnEnd]
  have hgo : ¬ (node :: stk = [] ∨ idx + 1 = encoded.length ∧ (node :: stk).length ≠ 1 ∨
      (node :: stk).length = 1 ∧ idx + 1 < encoded.length) := by
    rw [List.length_cons]
    rintro (hnil | ⟨heq, -⟩ | ⟨hone, -⟩)
    · cases hnil
    · omega
    · omega
  rw [if_neg hgo, if_neg fun h => hstk h.2]

/-- The last container is closed. -/
lemma turn_last (h : encoded.drop idx = [101]) : turn encoded ign ⟨idx, [node]⟩ = .returns node := by
  have hlen := congrArg List.length h
  rw [List.length_drop, List.length_singleton] at hlen
  rw [turn_end h]
  simp only [turnEnd]
  rw [if_neg (by simp; omega), if_pos ⟨by omega, trivial⟩]

lemma step_of_turn (hlen : encoded.length < 2 ^ 64) {d : Decoder} (h : turn encoded ign d = next idx (some stk))
    (hidx : idx < encoded.length) : step encoded ign d = some ⟨idx + 1, stk⟩ := by
  rw [step, h, next_eq hlen hidx]

/-! ## Values -/

/-- A node that is read in one turn. -/
def Atom : Node → Prop
  | .value _ v => v ≠ .null
  | .array _ _ | .object _ _ => False

lemma Item.key (h : Item k t node) : node.key = k := by cases h <;> rfl

lemma Item.ne_nil (h : Item k t node) : t ≠ [] := by
  cases h with
  | str => exact List.append_ne_nil_of_right_ne_nil _ (List.cons_ne_nil _ _)
  | int | list | dict => exact List.cons_ne_nil _ _

/-- Where a node belongs: in the list on top, or under the key on top in the dictionary below it. -/
inductive Takes (node : Node) : List Node → List Node → Prop where
  | array {ka : Bytes} {values stk : List Node} : node.key = [] →
      Takes node (.array ka values :: stk) (.array ka (values ++ [node]) :: stk)
  | entry {k ko : Bytes} {values stk : List Node} : node.key = k →
      Takes node (.value k .null :: .object ko values :: stk) (.object ko (Node.place values node) :: stk)

lemma Takes.topIsObject (h : Takes node stk stk') : topIsObject stk = false := by cases h <;> rfl

lemma Takes.ne_nil (h : Takes node stk stk') : stk ≠ [] := by cases h <;> exact List.cons_ne_nil _ _

lemma Takes.insertInt (h : Takes (.value k (.int v)) stk stk') : insertInt v stk = some stk' := by
  cases h with
  | array hk => rw [Bencode.insertInt, ← hk, Node.key]
  | entry hk => rw [Bencode.insertInt, pop_Setval_Extract_Push, if_pos (List.cons_ne_nil _ _), ← hk]; rfl

lemma Takes.insertStr (h : Takes (.value k (.str content)) stk stk') : insertStr content stk = some stk' := by
  cases h with
  | array hk => rw [Bencode.insertStr, ← hk, Node.key]
  | entry hk => rw [Bencode.insertStr, pop_Setval_Extract_Push, if_pos (List.cons_ne_nil _ _), ← hk]; rfl

lemma Takes.close (h : Takes node stk stk') : close (node.setKey []) stk = some stk' := by
  cases h with
  | array hk =>
    rw [Bencode.close, pushToTop, ← hk, Node.setKey_key]
  | entry hk =>
    rw [Bencode.close, if_pos (List.cons_ne_nil _ _), Node.setKey_setKey, ← hk, Node.setKey_key]
    rfl

/-- The text of a node is read where the node belongs; something follows, unless it takes one turn. -/
def Advances (encoded : Bytes) (ign : Bool) (t : Bytes) (node : Node) : Prop :=
  ∀ idx stk stk' rest, encoded.drop idx = t ++ rest → rest ≠ [] ∨ Atom node → Takes node stk stk' →
    Reaches (step encoded ign) ⟨idx, stk⟩ ⟨idx + t.length, stk'⟩

/-- The members of an open container are read one after the other. -/
lemma reaches_members {α : Type} {bytes : α → Bytes} {add : List Node → α → List Node} (container : List Node → Node)
    {atom : α → Prop} {l : List α} (hne : ∀ a ∈ l, bytes a ≠ [])
    (hmember : ∀ a ∈ l, ∀ idx values rest, encoded.drop idx = bytes a ++ rest → rest ≠ [] ∨ atom a →
      Reaches (step encoded ign) ⟨idx, container values :: stk⟩
        ⟨idx + (bytes a).length, container (add values a) :: stk⟩)
    {values : List Node} (h : encoded.drop idx = l.flatMap bytes ++ rest)
    (hend : rest ≠ [] ∨ ∀ a ∈ l.getLast?, atom a) :
    Reaches (step encoded ign) ⟨idx, container values :: stk⟩
      ⟨idx + (l.flatMap bytes).length, container (l.foldl add values) :: stk⟩ := by
  induction l generalizing idx values with
  | nil => exact Reaches.refl _
  | cons a l ih =>
    rw [List.forall_mem_cons] at hne hmember
    rw [List.flatMap_cons, List.append_assoc] at h
    have hfirst : l.flatMap bytes ++ rest ≠ [] ∨ atom a := by
      cases l with
      | nil => exact hend.imp id fun hlast => hlast a rfl
      | cons a' l =>
        refine Or.inl (List.append_ne_nil_of_left_ne_nil ?_ _)
        exact List.append_ne_nil_of_left_ne_nil (hne.2 a' List.mem_cons_self) _
    have hlater : rest ≠ [] ∨ ∀ a ∈ l.getLast?, atom a := by
      refine hend.imp id fun hlast => ?_
      cases l with
      | nil => simp
      | cons a' l => rwa [List.getLast?_cons_cons] at hlast
    refine (hmember.1 idx values _ h hfirst).trans ?_
    rw [List.flatMap_cons, List.length_append, ← Nat.add_assoc, List.foldl_cons]
    exact ih hne.2 hmember.2 (drop_add h) hlater

/-- A key is read, and what it stands for. -/
lemma reaches_entry (hlen : encoded.length < 2 ^ 64) {e : Entry} (hkey : LenText e.lenText e.key.length)
    (hnode : e.node.key = e.key) (hvalue : ¬ e.Dangling → Advances encoded ign e.text e.node) {ko : Bytes}
    {values : List Node} (h : encoded.drop idx = e.bytes ++ rest) (hend : rest ≠ [] ∨ Atom e.node) :
    Reaches (step encoded ign) ⟨idx, .object ko values :: stk⟩
      ⟨idx + e.bytes.length, .object ko (Node.place values e.node) :: stk⟩ := by
  rw [Entry.bytes, Entry.keyBytes, List.append_assoc, List.append_assoc, List.cons_append] at h
  have hlt := lt_length_of_drop h
  have hdrop : encoded.drop (idx + e.keyBytes.length) = e.text ++ rest := by
    refine drop_add ?_
    rw [h, Entry.keyBytes, List.append_assoc, List.cons_append]
  have hlast := lt_length_of_str h
  have hstep : step encoded ign ⟨idx, .object ko values :: stk⟩ =
      some ⟨idx + e.keyBytes.length, .value e.key .null :: .object ko values :: stk⟩ := by
    rw [step_of_turn hlen (turn_str ign _ hlen h hkey) hlast, Entry.keyBytes, List.length_append, List.length_cons]
    rfl
  refine Reaches.head hstep ?_
  rw [Entry.bytes, List.length_append, ← Nat.add_assoc]
  by_cases hd : e.Dangling
  · rw [hd.1, List.singleton_append] at hdrop
    have hrest : rest ≠ [] := hend.resolve_right fun hatom => by
      rw [hd.2] at hatom
      exact hatom rfl
    have hlt' := lt_length_of_cons hdrop
    rw [hd.1, hd.2]
    exact Reaches.head (step_of_turn hlen (turn_close ign _ hdrop hrest (List.cons_ne_nil _ _)) hlt') (Reaches.refl _)
  · exact hvalue hd _ _ _ _ hdrop hend (.entry hnode)

lemma foldl_snoc {α : Type} (l : List α) (f : α → Node) (values : List Node) :
    l.foldl (fun values a => values ++ [f a]) values = values ++ l.map f := by
  induction l generalizing values with
  | nil => simp
  | cons a l ih => rw [List.foldl_cons, ih, List.map_cons, List.append_assoc, List.singleton_append]

lemma Entry.bytes_ne_nil (e : Entry) : e.bytes ≠ [] := by
  rw [bytes, keyBytes]
  exact List.append_ne_nil_of_left_ne_nil (List.append_ne_nil_of_right_ne_nil _ (List.cons_ne_nil _ _)) _

/-- The items of an open list. -/
lemma reaches_items {items : List (Bytes × Node)} (hkeys : ∀ x ∈ items, x.2.key = [] ∧ x.1 ≠ [])
    (hitems : ∀ x ∈ items, Advances encoded ign x.1 x.2) {values : List Node}
    (h : encoded.drop idx = items.flatMap Prod.fst ++ rest) (hend : rest ≠ [] ∨ ∀ x ∈ items.getLast?, Atom x.2) :
    Reaches (step encoded ign) ⟨idx, .array [] values :: stk⟩
      ⟨idx + (items.flatMap Prod.fst).length, .array [] (values ++ items.map Prod.snd) :: stk⟩ := by
  rw [← foldl_snoc]
  refine reaches_members (.array []) (fun x hx => (hkeys x hx).2) ?_ h hend
  intro x hx idx values rest hdrop hend
  exact hitems x hx idx _ _ rest hdrop hend (.array (hkeys x hx).1)

/-- The entries of an open dictionary. -/
lemma reaches_entries (hlen : encoded.length < 2 ^ 64) {entries : List Entry}
    (hkeys : ∀ e ∈ entries, LenText e.lenText e.key.length ∧ e.node.key = e.key)
    (hvalues : ∀ e ∈ entries, ¬ e.Dangling → Advances encoded ign e.text e.node) {values : List Node}
    (h : encoded.drop idx = entries.flatMap Entry.bytes ++ rest)
    (hend : rest ≠ [] ∨ ∀ e ∈ entries.getLast?, Atom e.node) :
    Reaches (step encoded ign) ⟨idx, .object [] values :: stk⟩
      ⟨idx + (entries.flatMap Entry.bytes).length,
        .object [] ((entries.map Entry.node).foldl Node.place values) :: stk⟩ := by
  rw [List.foldl_map]
  refine reaches_members (.object []) (fun e _ => e.bytes_ne_nil) ?_ h hend
  intro e he idx values rest hdrop hend
  exact reaches_entry hlen (hkeys e he).1 (hkeys e he).2 (hvalues e he) hdrop hend

lemma Entry.node_key {e : Entry} (h : ¬ e.Dangling → Item e.key e.text e.node) : e.node.key = e.key := by
  by_cases hd : e.Dangling
  · rw [hd.2, Node.key]
  · exact (h hd).key

/-- A list is opened and its items are read. -/
lemma reaches_list (ign : Bool) (stk : List Node) (hlen : encoded.length < 2 ^ 64) {items : List (Bytes × Node)}
    (hitems : ∀ x ∈ items, Item [] x.1 x.2) (hadvances : ∀ x ∈ items, Advances encoded ign x.1 x.2)
      (hstk : topIsObject stk = false)
    (h : encoded.drop idx = 108 :: items.flatMap Prod.fst ++ rest) (hend : rest ≠ [] ∨ ∀ x ∈ items.getLast?, Atom x.2) :
    Reaches (step encoded ign) ⟨idx, stk⟩
      ⟨idx + (108 :: items.flatMap Prod.fst).length, .array [] (items.map Prod.snd) :: stk⟩ := by
  have hturn := turn_list ign h hstk
  rw [List.length_cons, Nat.add_comm _ 1, ← Nat.add_assoc]
  exact Reaches.head (step_of_turn hlen hturn (lt_length_of_cons h))
    (reaches_items (fun x hx => ⟨(hitems x hx).key, (hitems x hx).ne_nil⟩) hadvances (drop_succ h) hend)

/-- A dictionary is opened and its entries are read. -/
lemma reaches_dict (ign : Bool) (stk : List Node) (hlen : encoded.length < 2 ^ 64) {entries : List Entry}
    (hkeys : ∀ e ∈ entries, LenText e.lenText e.key.length)
    (hitems : ∀ e ∈ entries, ¬ e.Dangling → Item e.key e.text e.node)
    (hadvances : ∀ e ∈ entries, ¬ e.Dangling → Advances encoded ign e.text e.node) (hstk : topIsObject stk = false)
    (h : encoded.drop idx = 100 :: entries.flatMap Entry.bytes ++ rest)
    (hend : rest ≠ [] ∨ ∀ e ∈ entries.getLast?, Atom e.node) :
    Reaches (step encoded ign) ⟨idx, stk⟩ ⟨idx + (100 :: entries.flatMap Entry.bytes).length,
      .object [] ((entries.map Entry.node).foldl Node.place []) :: stk⟩ := by
  have hturn := turn_dict ign h hstk
  rw [List.length_cons, Nat.add_comm _ 1, ← Nat.add_assoc]
  exact Reaches.head (step_of_turn hlen hturn (lt_length_of_cons h))
    (reaches_entries hlen (fun e he => ⟨hkeys e he, Entry.node_key (hitems e he)⟩) hadvances (drop_succ h) hend)

/-- A container is closed that is not the last one. -/
lemma reaches_close (hlen : encoded.length < 2 ^ 64) {front : Bytes} {filled : Node}
    (hopen : Reaches (step encoded ign) ⟨idx, stk⟩ ⟨idx + front.length, filled :: stk⟩)
    (h : encoded.drop idx = front ++ [101] ++ rest) (hrest : rest ≠ []) (hstk : stk ≠ [])
    (hclose : close filled stk = some stk') :
    Reaches (step encoded ign) ⟨idx, stk⟩ ⟨idx + (front ++ [101]).length, stk'⟩ := by
  rw [List.append_assoc] at h
  have hdrop : encoded.drop (idx + front.length) = 101 :: rest := drop_add h
  have hturn := turn_close ign filled hdrop hrest hstk
  rw [hclose] at hturn
  refine hopen.trans (Reaches.head (step_of_turn hlen hturn (lt_length_of_cons hdrop)) ?_)
  rw [List.length_append, List.length_singleton]
  exact Reaches.refl _

/-- Wherever the text of a value stands, the decoder reads it as its node. -/
theorem Item.advances (hlen : encoded.length < 2 ^ 64) (h : Item k t node) : Advances encoded ign t node := by
  induction h with
  | @int k t v ht =>
    intro idx stk stk' rest h _ htakes
    rw [List.append_assoc, List.singleton_append] at h
    have hlt := lt_length_of_drop h
    have hturn := turn_int ign h ht htakes.topIsObject
    rw [htakes.insertInt] at hturn
    refine Reaches.head (step_of_turn hlen hturn hlt) ?_
    rw [List.length_append, List.length_singleton, List.length_cons]
    exact Reaches.refl _
  | @str k t content ht =>
    intro idx stk stk' rest h _ htakes
    rw [List.append_assoc, List.cons_append] at h
    have hlt := lt_length_of_str h
    have hturn := turn_str ign stk hlen h ht
    rw [htakes.insertStr] at hturn
    refine Reaches.head (step_of_turn hlen hturn hlt) ?_
    rw [List.length_append, List.length_cons]
    exact Reaches.refl _
  | @list k items hitems ih =>
    intro idx stk stk' rest h hend htakes
    have hrest : rest ≠ [] := hend.resolve_right id
    rw [List.append_assoc] at h
    have hopen := reaches_list ign stk hlen hitems ih htakes.topIsObject h (Or.inl (List.cons_ne_nil _ _))
    rw [← List.append_assoc] at h
    exact reaches_close hlen hopen h hrest htakes.ne_nil htakes.close
  | @dict k entries hkeys hitems ih =>
    intro idx stk stk' rest h hend htakes
    have hrest : rest ≠ [] := hend.resolve_right id
    rw [List.append_assoc] at h
    have hopen := reaches_dict ign stk hlen hkeys hitems ih htakes.topIsObject h (Or.inl (List.cons_ne_nil _ _))
    rw [← List.append_assoc] at h
    exact reaches_close hlen hopen h hrest htakes.ne_nil htakes.close

/-! ## Whole texts -/

lemma returns_of_end {node : Node} (h : Reaches (step encoded ign) start ⟨encoded.length, [node]⟩) :
    Returns encoded ign node := by
  refine ⟨_, h, ?_⟩
  rw [turn, List.getElem?_eq_none le_rfl]

lemma returns_of_last {node : Node} (h : Reaches (step encoded ign) start ⟨idx, [node]⟩)
    (hdrop : encoded.drop idx = [101]) : Returns encoded ign node := ⟨_, h, turn_last hdrop⟩

/-- A string or an integer at the beginning. -/
lemma reaches_atom (hlen : encoded.length < 2 ^ 64) (h : Item [] t node) (hatom : Atom node)
    (hdrop : encoded = t ++ rest) : Reaches (step encoded ign) start ⟨t.length, [node]⟩ := by
  have hzero : encoded.drop 0 = t ++ rest := hdrop
  cases h with
  | @int _ t v ht =>
    rw [List.append_assoc, List.singleton_append] at hzero
    have hturn := @turn_int encoded t _ 0 [] v ign hzero ht rfl
    refine Reaches.head (step_of_turn hlen hturn (lt_length_of_drop hzero)) ?_
    rw [List.length_append, List.length_singleton, List.length_cons, Nat.zero_add]
    exact Reaches.refl _
  | @str _ t content ht =>
    rw [List.append_assoc, List.cons_append] at hzero
    have hturn := turn_str ign [] hlen hzero ht
    refine Reaches.head (step_of_turn hlen hturn (lt_length_of_str hzero)) ?_
    rw [List.length_append, List.length_cons, Nat.zero_add]
    exact Reaches.refl _
  | list | dict => exact hatom.elim

/-- A text that is the text of a value is read as its node. -/
theorem Item.returns (hlen : encoded.length < 2 ^ 64) (h : Item [] encoded node) : Returns encoded ign node := by
  by_cases hatom : Atom node
  · exact returns_of_end (reaches_atom hlen h hatom (List.append_nil encoded).symm)
  · cases h with
    | int | str => exact absurd (by simp [Atom]) hatom
    | @list _ items hitems =>
      have hzero : (108 :: items.flatMap Prod.fst ++ [101]).drop 0 = 108 :: items.flatMap Prod.fst ++ [101] := rfl
      have hopen := reaches_list ign [] hlen hitems (fun x hx => (hitems x hx).advances hlen) rfl hzero
        (Or.inl (List.cons_ne_nil _ _))
      rw [Nat.zero_add] at hopen
      exact returns_of_last hopen List.drop_left
    | @dict _ entries hkeys hitems =>
      have hzero : (100 :: entries.flatMap Entry.bytes ++ [101]).drop 0 =
        100 :: entries.flatMap Entry.bytes ++ [101] := rfl
      have hopen := reaches_dict ign [] hlen hkeys hitems (fun e he hd => (hitems e he hd).advances hlen) rfl hzero
        (Or.inl (List.cons_ne_nil _ _))
      rw [Nat.zero_add] at hopen
      exact returns_of_last hopen List.drop_left

/-- There is one result at most. -/
theorem Returns.unique {node' : Node} (h : Returns encoded ign node) (h' : Returns encoded ign node') :
    node = node' := by
  obtain ⟨d, hd, hturn⟩ := h
  obtain ⟨d', hd', hturn'⟩ := h'
  obtain rfl := hd.halted_unique (by rw [step, hturn]) hd' (by rw [step, hturn'])
  rw [hturn] at hturn'
  exact Turn.returns.inj hturn'

end CppExperiments.Bencode
