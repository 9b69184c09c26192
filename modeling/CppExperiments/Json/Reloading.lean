import CppExperiments.Json.Kept

/-!
# Loading what was dumped

A quote in a string is escaped once more on every dump, so that a text has more backslashes than the tree that it would
have to come back to.
-/

namespace CppExperiments.Json

variable {F : Floats} {pretty skipKey : Bool} {level : Nat} {n : Node} {values : List Node} {s : Bytes}

/-! ## The backslashes of a text -/

/-- The backslashes that are put in front of quotes. -/
def added : List Simple → ℕ∞
  | [] => 0
  | .str s :: vs => (s.count 34 : ℕ) + added vs
  | _ :: vs => added vs

lemma added_append (vs vs' : List Simple) : added (vs ++ vs') = added vs + added vs' := by
  induction vs with
  | nil => exact (zero_add _).symm
  | cons v vs ih =>
    rw [List.cons_append]
    cases v with
    | str s => rw [added, added, ih, add_assoc]
    | null | int v | double bits | bool b => exact ih

lemma notMem_of_added {vs : List Simple} (h : added vs = 0) : ∀ s, Simple.str s ∈ vs → 34 ∉ s := by
  induction vs with
  | nil => exact fun s hs => by cases hs
  | cons v vs ih =>
    intro s hs
    have hboth : added vs = 0 ∧ ∀ s, v = .str s → s.count 34 = 0 := by
      cases v with
      | str s' =>
        rw [added, add_eq_zero, Nat.cast_eq_zero] at h
        exact ⟨h.2, fun s hs => (Simple.str.inj hs) ▸ h.1⟩
      | null | int v | double bits | bool b => exact ⟨h, fun s => nofun⟩
    rcases List.mem_cons.1 hs with hs | hs
    · exact List.count_eq_zero.1 (hboth.2 s hs.symm)
    · exact ih hboth.1 s hs

lemma backslashes_escaped (s : Bytes) :
    backslashes (s.flatMap fun ch => if ch = 34 then [92, ch] else [ch]) = backslashes s + (s.count 34 : ℕ) := by
  induction s with
  | nil => rfl
  | cons ch s ih =>
    have hch : backslashes (if ch = 34 then [92, ch] else [ch]) = backslashes [ch] + ([ch].count 34 : ℕ) := by
      by_cases h : ch = 34
      · rw [if_pos h, h]
        rfl
      · rw [if_neg h, List.count_eq_zero.2 (by simpa using Ne.symm h), Nat.cast_zero, add_zero]
    have hcons : backslashes (ch :: s) + ((ch :: s).count 34 : ℕ) =
        backslashes [ch] + backslashes s + (([ch].count 34 : ℕ) + (s.count 34 : ℕ)) := by
      rw [← backslashes_append, ← Nat.cast_add, ← List.count_append]
      rfl
    rw [List.flatMap_cons, backslashes_append, ih, hch, hcons]
    abel

lemma backslashes_simple_format {v : Simple} (h : ∀ bits, v ≠ .double bits) :
    backslashes (simple_format F v) = v.weight + added [v] := by
  cases v with
  | str s =>
    rw [simple_format, backslashes_append, backslashes_append, backslashes_escaped, Simple.weight, added, added,
      add_zero,
      show backslashes [34] = 0 from rfl, zero_add, add_zero]
  | null => rfl
  | int v =>
    have hcount : (decimalInt v.toInt).count 92 = 0 := List.count_eq_zero.2 (notMem_decimalInt (by decide))
    rw [simple_format, backslashes, hcount]
    rfl
  | double bits => exact absurd rfl (h bits)
  | bool b => cases b <;> rfl

lemma backslashes_repeatStr {str : Bytes} (h : 92 ∉ str) (times : Nat) : backslashes (repeatStr str times) = 0 := by
  rw [backslashes, List.count_eq_zero.2, Nat.cast_zero]
  intro hmem
  obtain ⟨bs, hbs, hmem⟩ := List.mem_flatten.1 hmem
  exact h ((List.eq_of_mem_replicate hbs) ▸ hmem)

lemma backslashes_cons {b : UInt8} (hb : b ≠ 92) (bs : Bytes) : backslashes (b :: bs) = backslashes bs := by
  rw [backslashes, List.count_cons_of_ne hb]
  rfl

lemma backslashes_spacing : backslashes (spacing pretty level) = 0 := by
  cases pretty with
  | false => rfl
  | true => exact (backslashes_cons (by decide) _).trans (backslashes_repeatStr (by decide) _)

lemma backslashes_closing : backslashes (closing pretty level) = 0 := by
  cases pretty with
  | false => rfl
  | true => exact (backslashes_cons (by decide) _).trans (backslashes_repeatStr (by decide) _)

lemma backslashes_keyStr {key : Bytes} (h : skipKey = true → key = []) :
    backslashes (keyStr pretty skipKey key) = backslashes key := by
  cases skipKey with
  | true => rw [h rfl, keyStr, if_pos rfl]
  | false =>
    have hback : backslashes (if pretty then [32] else []) = 0 := by cases pretty <;> rfl
    rw [keyStr, if_neg (by decide), backslashes_append, backslashes_append, backslashes_append, hback,
      show backslashes [34] = 0 from rfl, show backslashes [34, 58] = 0 from rfl, zero_add, add_zero, add_zero]

/-- Taking back a comma, or nothing, loses no backslash. -/
lemma backslashes_bracketed {front items : Bytes} {ch : UInt8} (hch : ch ≠ 92)
    (hitems : values ≠ [] → ∃ bs, items = bs ++ [44]) :
    backslashes (bracketed pretty level front items values ch) = backslashes front + backslashes items := by
  have hinner : backslashes (if 0 < values.length then (front ++ items).dropLast else front ++ items) =
      backslashes front + backslashes items := by
    by_cases hvalues : values = []
    · rw [if_neg (by simp [hvalues]), backslashes_append]
    · obtain ⟨bs, rfl⟩ := hitems hvalues
      rw [if_pos (List.length_pos_of_ne_nil hvalues), ← List.append_assoc, List.dropLast_concat, backslashes_append,
        backslashes_append, show backslashes [44] = 0 from rfl, add_zero]
  rw [bracketed, backslashes_append, backslashes_append, hinner, backslashes_closing, backslashes_cons hch,
    backslashes_nil,
    add_zero, add_zero]

lemma dumpsEach_concat (hvalues : values ≠ []) : ∃ bs, dumpsEach F pretty skipKey level values = bs ++ [44] := by
  induction values with
  | nil => exact absurd rfl hvalues
  | cons n values ih =>
    rw [dumpsEach]
    cases values with
    | nil => exact ⟨_, List.append_nil _⟩
    | cons n' values =>
      obtain ⟨bs, hbs⟩ := ih (List.cons_ne_nil _ _)
      rw [hbs]
      exact ⟨_, (List.append_assoc _ bs [44]).symm⟩

lemma backslashes_dumpsEach (skipKey : Bool) (level : Nat)
    (h : ∀ n ∈ values, backslashes (_dumps F pretty skipKey (level + 1) n) = n.weight + added n.leaves) :
    backslashes (dumpsEach F pretty skipKey level values) = Node.weightEach values + added
      (Node.leavesEach values) := by
  induction values with
  | nil => rfl
  | cons n values ih =>
    rw [List.forall_mem_cons] at h
    rw [dumpsEach, backslashes_append, backslashes_append, backslashes_append, backslashes_spacing, h.1, ih h.2,
      Node.weightEach, Node.leavesEach, added_append, show backslashes [44] = 0 from rfl]
    abel

/-- A text has the backslashes of the tree and one for every quote in a string. -/
theorem backslashes_dumps {B : Bytes → Prop} (h : n.Tree B) (hkey : skipKey = true → n.key = []) :
    backslashes (_dumps F pretty skipKey level n) = n.weight + added n.leaves := by
  have hvalue : ∀ {skipKey : Bool} {level : Nat} {key : Bytes} {v : Simple}, (∀ bits, v ≠ .double bits) →
    (skipKey = true → key = []) →
      backslashes (_dumps F pretty skipKey level (.value key v)) = (Node.value key v).weight + added
        (Node.leaves (.value key v)) := by
    intro skipKey level key v hv hkey
    rw [_dumps, backslashes_append, backslashes_keyStr hkey, backslashes_simple_format hv, Node.weight, Node.leaves,
      add_assoc]
  induction h generalizing skipKey level with
  | null | bool | int | str _ => exact hvalue (fun bits heq => by cases heq) hkey
  | @array key values hkeys _ ih =>
    have hroot : skipKey = true → key = [] := hkey
    have heach := backslashes_dumpsEach true level fun n hn => ih n hn fun _ => hkeys n hn
    rw [_dumps, backslashes_bracketed (by decide) dumpsEach_concat, heach, backslashes_append, backslashes_keyStr hroot,
      show backslashes [91] = 0 from rfl, add_zero, Node.weight, Node.leaves, add_assoc]
  | @object key values _ _ _ ih =>
    have hroot : skipKey = true → key = [] := hkey
    have heach := backslashes_dumpsEach false level fun n hn => ih n hn fun hfirst => absurd hfirst Bool.false_ne_true
    rw [_dumps, backslashes_bracketed (by decide) dumpsEach_concat, heach, backslashes_append, backslashes_keyStr hroot,
      show backslashes [123] = 0 from rfl, add_zero, Node.weight, Node.leaves, add_assoc]

namespace Node

mutual

lemma weight_lt_top : (n : Node) → n.Floatless → n.weight < ⊤
  | value key v, h => by
    have hv : v.weight < ⊤ := by
      cases v with
      | str s => exact ENat.natCast_lt_top _
      | double bits => exact absurd List.mem_cons_self (h bits)
      | null | int v | bool b => exact ENat.natCast_lt_top 0
    exact ENat.add_lt_top.2 ⟨ENat.natCast_lt_top _, hv⟩
  | array key values, h | object key values, h =>
    ENat.add_lt_top.2 ⟨ENat.natCast_lt_top _, weightEach_lt_top values h⟩

lemma weightEach_lt_top : (values : List Node) → (∀ bits, Simple.double bits ∉ leavesEach values) →
    weightEach values < ⊤
  | [], _ => ENat.natCast_lt_top 0
  | n :: values, h => ENat.add_lt_top.2 ⟨weight_lt_top n fun bits hbits => h bits (List.mem_append_left _ hbits),
      weightEach_lt_top values fun bits hbits => h bits (List.mem_append_right _ hbits)⟩

end

end Node

lemma Node.Tree.floatless {B : Bytes → Prop} (h : n.Tree B) : n.Floatless := by
  have heach : ∀ {values : List Node}, (∀ n ∈ values, n.Floatless) → ∀ bits,
    Simple.double bits ∉ leavesEach values := by
    intro values hvalues bits hbits
    rw [leavesEach_eq] at hbits
    obtain ⟨n, hn, hbits⟩ := List.mem_flatMap.1 hbits
    exact hvalues n hn bits hbits
  induction h with
  | null | bool | int | str _ => exact fun bits => by simp [leaves]
  | array _ _ ih | object _ _ _ ih => exact heach ih

lemma Node.Tree.loads_dumps (F : Floats) (pretty : Bool) (h : n.Tree KeptBody) (hcontainer : n.IsContainer)
    (hkey : n.key = []) (hn : n.Quoteless) : loads F (dumps F pretty n) = some n := by
  have hlayout := h.layout_dumps F pretty hn true 1
  rw [Shape.keyLexemes, if_neg (by decide), List.nil_append] at hlayout
  exact h.loads_layout hcontainer hkey hlayout

lemma Node.Tree.quoteless (h : n.Tree KeptBody) (hkey : n.key = []) (hloads : loads F (dumps F pretty n) = some n) :
    n.Quoteless := by
  obtain ⟨-, -, -, hle⟩ := kept_of_loads hloads
  rw [dumps, backslashes_dumps h fun _ => hkey] at hle
  have hle' : n.weight + added n.leaves ≤ n.weight + 0 := by rwa [add_zero]
  exact notMem_of_added (nonpos_iff_eq_zero.1 ((ENat.add_le_add_iff_left (n.weight_lt_top h.floatless).ne).1 hle'))

/-- A text that was loaded and has no floating-point numbers is reproduced by a dump and another load exactly if there
is no quote in its values. -/
theorem loads_dumps_iff (F : Floats) (pretty : Bool) {text : Bytes} {n : Node} (h : loads F text = some n)
    (hn : n.Floatless) : loads F (dumps F pretty n) = some n ↔ n.Quoteless := by
  obtain ⟨hkey, hcontainer, hkept, -⟩ := kept_of_loads h
  have htree := hkept.tree hn
  exact ⟨htree.quoteless hkey, htree.loads_dumps F pretty hcontainer hkey⟩

/-- A tree with a quote in a key, which does no harm. -/
def quotedKeyTree : Node :=
  .object [] [.array (ascii "a\\\"") [.value [] (.int (-7)), .value [] .null, .value [] (.str (ascii "x\\\\"))]]

lemma tree_quotedKeyTree : quotedKeyTree.Tree KeptBody := by
  refine .object (by decide) ?_ ?_
  · exact List.forall_mem_singleton.2 ⟨rfl, by decide, by decide⟩
  · refine List.forall_mem_singleton.2 (.array (by decide) ?_)
    simp only [List.forall_mem_cons]
    exact ⟨.int, .null, .str ⟨rfl, by decide, by decide⟩, by simp⟩

lemma quoteless_quotedKeyTree : quotedKeyTree.Quoteless := by
  have hleaves : quotedKeyTree.leaves = [.int (-7), .null, .str (ascii "x\\\\")] := rfl
  intro s hs
  rw [hleaves] at hs
  obtain rfl : s = ascii "x\\\\" := by simpa using hs
  decide

theorem loads_dumps_quotedKeyTree : loads noFloats (dumps noFloats true quotedKeyTree) = some quotedKeyTree :=
  (loads_dumps_iff noFloats true
    (tree_quotedKeyTree.loads_dumps noFloats false trivial rfl quoteless_quotedKeyTree)
    tree_quotedKeyTree.floatless).2 quoteless_quotedKeyTree

/-- The text `["\""]` is loaded, and `["\\""]` is dumped. -/
theorem not_loads_dumps_quote : ¬ ∀ (text : Bytes) (n : Node), loads noFloats text = some n → n.Floatless →
    ∀ pretty, loads noFloats (dumps noFloats pretty n) = some n := by
  intro h
  have htree : (Node.array [] [.value [] (.str [92, 34])]).Tree StringBody :=
    .array (by decide) (List.forall_mem_singleton.2 (.str (.escape (by decide) .nil)))
  have hkept := htree.mono fun _ => StringBody.kept
  have hloads : loads noFloats (ascii "[\"\\\"\"]") = some (.array [] [.value [] (.str [92, 34])]) :=
    loads_rendering noFloats htree trivial rfl
      (@layout_of_pairs isBlank [([], .mark 91), ([], .str [92, 34]), ([], .mark 93)] [] rfl rfl)
  exact hkept.quoteless rfl (h _ _ hloads hkept.floatless false) [92, 34] List.mem_cons_self (by decide)

end CppExperiments.Json
