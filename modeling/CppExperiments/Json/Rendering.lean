import CppExperiments.Json.Layouts

/-!
# The grammar of JSON

White space and the bodies of strings as RFC 8259 has them.
-/

namespace CppExperiments.Json

/-- Space, tab, line feed and carriage return. -/
def isBlank (b : UInt8) : Bool := b == 32 || b == 9 || b == 10 || b == 13

/-- What stands between the quotes of a string. Bytes from 128 on are parts of characters. -/
inductive StringBody : Bytes → Prop where
  | nil : StringBody []
  | char {b : UInt8} {body : Bytes} : 32 ≤ b → b ≠ 34 → b ≠ 92 → StringBody body → StringBody (b :: body)
  | escape {b : UInt8} {body : Bytes} : b ∈ [34, 92, 47, 98, 102, 110, 114, 116] → StringBody body →
      StringBody (92 :: b :: body)
  | hex {digits body : Bytes} : digits.length = 4 → (∀ b ∈ digits, isHexDigit b = true) → StringBody body →
      StringBody (92 :: 117 :: (digits ++ body))

lemma isSpace_of_isBlank {b : UInt8} (h : isBlank b = true) : isSpace b = true := by
  rw [isBlank, Bool.or_eq_true, Bool.or_eq_true, Bool.or_eq_true, beq_iff_eq, beq_iff_eq, beq_iff_eq, beq_iff_eq] at h
  rcases h with ((rfl | rfl) | rfl) | rfl <;> rfl

lemma Layout.mono {blank blank' : UInt8 → Bool} {ls : List Lexeme} {text : Bytes} (h : Layout blank ls text)
    (hblank : ∀ b, blank b = true → blank' b = true) : Layout blank' ls text := by
  induction h with
  | nil hw => exact .nil fun b hb => hblank b (hw b hb)
  | cons hw _ ih => exact .cons (fun b hb => hblank b (hw b hb)) ih

lemma bounds_of_isHexDigit {b : UInt8} (h : isHexDigit b = true) : 48 ≤ b ∧ b ≠ 92 := by
  have hnat := toNat_of_isHexDigit h
  rw [UInt8.le_iff_toNat_le, Ne, ← UInt8.toNat_inj]
  have h48 : (48 : UInt8).toNat = 48 := rfl
  have h92 : (92 : UInt8).toNat = 92 := rfl
  omega

lemma inside_append {w body : Bytes} (hw : ∀ b ∈ w, b ≠ 34 ∧ b ≠ 92) :
    Inside false (w ++ body) = Inside false body := by
  induction w with
  | nil => rfl
  | cons b w ih =>
    rw [List.forall_mem_cons] at hw
    rw [List.cons_append, Inside, bne_iff_ne.2 hw.1.1, beq_eq_false_iff_ne.2 hw.1.2, Bool.true_and, ih hw.2]

/-- The parser takes the bodies of strings as they are. -/
theorem StringBody.inside {body : Bytes} (h : StringBody body) : Inside false body = true ∧ ∀ b ∈ body, 32 ≤ b := by
  induction h with
  | nil => exact ⟨rfl, fun b hb => (by cases hb)⟩
  | @char b body hb hquote hslash _ ih =>
    constructor
    · rw [Inside, bne_iff_ne.2 hquote, beq_eq_false_iff_ne.2 hslash, ih.1]
      rfl
    · exact List.forall_mem_cons.2 ⟨hb, ih.2⟩
  | @escape b body hb _ ih =>
    have hall : ∀ b ∈ ([34, 92, 47, 98, 102, 110, 114, 116] : List UInt8), b ∈ validEscapes ∧ 32 ≤ b :=
      forall_mem_of_all rfl
    obtain ⟨hvalid, hle⟩ := hall b hb
    constructor
    · rw [Inside, beq_iff_eq.2 rfl, Inside, decide_eq_true hvalid, ih.1]
      rfl
    · exact List.forall_mem_cons.2 ⟨by decide, List.forall_mem_cons.2 ⟨hle, ih.2⟩⟩
  | @hex digits body _ hdigits _ ih =>
    have hbounds := fun b hb => bounds_of_isHexDigit (hdigits b hb)
    constructor
    · rw [Inside, beq_iff_eq.2 rfl, Inside, decide_eq_true (by decide), inside_append, ih.1]
      · rfl
      · intro b hb
        obtain ⟨hle, hne⟩ := hbounds b hb
        refine ⟨?_, hne⟩
        rintro rfl
        exact absurd hle (by decide)
    · refine List.forall_mem_cons.2 ⟨by decide, List.forall_mem_cons.2 ⟨by decide, ?_⟩⟩
      intro b hb
      rcases List.mem_append.1 hb with hb | hb
      · exact UInt8.le_trans (by decide) (hbounds b hb).1
      · exact ih.2 b hb

end CppExperiments.Json

/-!
## Rendered trees

Every tree is read back from its tokens, wherever there is white space between them.
-/

namespace CppExperiments.Json

/-! ## The tokens of a tree -/

def Simple.lexeme (F : Floats) : Simple → Lexeme
  | .str s => .str s
  | .null => .word (ascii "null")
  | .int v => .word (decimalInt v.toInt)
  | .double bits => .word (F.to_string bits)
  | .bool b => .word (if b then ascii "true" else ascii "false")

namespace Node

mutual

def shape (F : Floats) : Node → Shape
  | value key v => .scalar (.str key) (v.lexeme F)
  | array key values => .array (.str key) (shapeEach F values)
  | object key values => .object (.str key) (shapeEach F values)

def shapeEach (F : Floats) : List Node → List Shape
  | [] => []
  | n :: values => shape F n :: shapeEach F values

end

lemma shapeEach_eq (F : Floats) (values : List Node) : shapeEach F values = values.map (shape F) := by
  induction values with
  | nil => rfl
  | cons n values ih => rw [shapeEach, ih, List.map_cons]

lemma key_shape (F : Floats) (n : Node) : (n.shape F).key = .str n.key := by cases n <;> rfl

def IsContainer : Node → Prop
  | value _ _ => False
  | array _ _ | object _ _ => True

/-- Trees without floating-point numbers whose strings satisfy `B`. -/
inductive Tree (B : Bytes → Prop) : Node → Prop where
  | null {key : Bytes} : Tree B (.value key .null)
  | bool {key : Bytes} {b : Bool} : Tree B (.value key (.bool b))
  | int {key : Bytes} {v : Int64} : Tree B (.value key (.int v))
  | str {key s : Bytes} : B s → Tree B (.value key (.str s))
  | array {key : Bytes} {values : List Node} : (∀ n ∈ values, n.key = []) → (∀ n ∈ values, Tree B n) →
      Tree B (.array key values)
  | object {key : Bytes} {values : List Node} : (values.map Node.key).Nodup → (∀ n ∈ values, B n.key) →
      (∀ n ∈ values, Tree B n) → Tree B (.object key values)

lemma Tree.mono {B B' : Bytes → Prop} {n : Node} (h : Tree B n) (hB : ∀ s, B s → B' s) : Tree B' n := by
  induction h with
  | null => exact .null
  | bool => exact .bool
  | int => exact .int
  | str hs => exact .str (hB _ hs)
  | array hkeys _ ih => exact .array hkeys ih
  | object hnodup hkeys _ ih => exact .object hnodup (fun n hn => hB _ (hkeys n hn)) ih

end Node

/-! ## Reading the tokens back -/

/-- Bodies of strings that the parser keeps. -/
structure KeptBody (s : Bytes) : Prop where
  inside : Inside false s = true
  no_tab : 9 ∉ s
  no_newline : 10 ∉ s

lemma StringBody.kept {s : Bytes} (h : StringBody s) : KeptBody s := by
  obtain ⟨hinside, hle⟩ := h.inside
  exact ⟨hinside, fun hmem => absurd (hle 9 hmem) (by decide), fun hmem => absurd (hle 10 hmem) (by decide)⟩

variable {F : Floats} {s w : Bytes}

lemma getLast?_quoted (s : Bytes) : (34 :: s ++ [34]).getLast? = some 34 := List.getLast?_concat

lemma inner_quoted (s : Bytes) : (34 :: s ++ [34]).tail.dropLast = s := List.dropLast_concat

lemma KeptBody.notMem_quoted (h : KeptBody s) : 9 ∉ 34 :: s ++ [34] ∧ 10 ∉ 34 :: s ++ [34] := by
  simp [h.no_tab, h.no_newline]

lemma keyOf_quoted (h : KeptBody s) : keyOf (.text (34 :: s ++ [34])) = some s := by
  obtain ⟨htab, hnewline⟩ := h.notMem_quoted
  rw [keyOf, if_neg, inner_quoted]
  rintro (hhead | hlast | hmem | hmem)
  · exact hhead rfl
  · exact hlast (getLast?_quoted s)
  · exact htab hmem
  · exact hnewline hmem

lemma simple_parse_quoted (h : KeptBody s) : simple_parse F (34 :: s ++ [34]) = some (.str s) := by
  obtain ⟨htab, hnewline⟩ := h.notMem_quoted
  have hword : ∀ w : Bytes, w.head? ≠ some 34 → 34 :: s ++ [34] ≠ w := by
    rintro w hw rfl
    exact hw rfl
  have hmem : ¬ (9 ∈ 34 :: s ++ [34] ∨ 10 ∈ 34 :: s ++ [34]) := not_or.2 ⟨htab, hnewline⟩
  rw [simple_parse, if_neg (hword _ (by decide)), if_neg, if_pos ⟨rfl, getLast?_quoted s⟩, if_neg hmem, inner_quoted]
  · rintro (heq | heq)
    · exact hword _ (by decide) heq
    · exact hword _ (by decide) heq

/-- There is no zero in front of a numeral, but for 0 itself. -/
lemma rest_eq_nil_of_decimal {n : Nat} {rest : Bytes} (h : decimal n = 48 :: rest) : rest = [] := by
  induction n using Nat.strong_induction_on generalizing rest with
  | _ n ih =>
    rw [decimal_eq] at h
    by_cases hn : n < 10
    · rw [if_pos hn] at h
      exact (List.cons_eq_cons.1 h).2.symm
    · rw [if_neg hn] at h
      cases hhigh : decimal (n / 10) with
      | nil => exact absurd hhigh (decimal_ne_nil _)
      | cons b bs =>
        rw [hhigh, List.cons_append] at h
        obtain ⟨rfl, -⟩ := List.cons_eq_cons.1 h
        have hzero := ih (n / 10) (by omega) hhigh
        have hvalue := digitsValue_decimal (n / 10)
        rw [hhigh, hzero] at hvalue
        have h0 : digitsValue [48] = 0 := rfl
        omega

lemma leadingZeros_decimal (n : Nat) : leadingZeros (decimal n) = false := by
  obtain ⟨b, hb, hdigit⟩ := head?_decimal n
  cases hdecimal : decimal n with
  | nil => rfl
  | cons b' rest =>
    obtain rfl : b' = b := by
      rw [hdecimal] at hb
      exact Option.some.inj hb
    rw [leadingZeros, List.dropWhile_cons_of_neg (by simp [hdigit])]
    cases rest with
    | nil => rfl
    | cons second rest =>
      dsimp only
      rw [Bool.and_eq_false_iff, beq_eq_false_iff_ne]
      refine .inl ?_
      rintro rfl
      exact absurd (rest_eq_nil_of_decimal hdecimal) (List.cons_ne_nil _ _)

lemma leadingZeros_decimalInt (z : Int) : leadingZeros (decimalInt z) = false := by
  cases z with
  | ofNat n => exact leadingZeros_decimal n
  | negSucc n =>
    rw [decimalInt, leadingZeros, List.dropWhile_cons_of_pos (by decide)]
    exact leadingZeros_decimal (n + 1)

lemma countP_decimal (n : Nat) : (decimal n).countP isDigit = (decimal n).length :=
  List.countP_eq_length.2 (List.all_eq_true.1 (isDigit_decimal n))

lemma digitCount_decimalInt (z : Int) : (decimalInt z).countP isDigit = (decimalInt z).length ∨
    (decimalInt z).countP isDigit + 1 = (decimalInt z).length ∧ (decimalInt z).head? = some 45 := by
  cases z with
  | ofNat n => exact .inl (countP_decimal n)
  | negSucc n =>
    refine .inr ⟨?_, rfl⟩
    rw [decimalInt, List.countP_cons_of_neg (by decide), countP_decimal, List.length_cons]

lemma stoll_decimalInt (v : Int64) : stoll (decimalInt v.toInt) = some v.toInt := by
  have hlong : InLong v.toInt := ⟨v.le_toInt, v.toInt_lt⟩
  rw [stoll, integerPrefix_decimalInt, Option.filter_some, if_pos (decide_eq_true hlong)]

lemma simple_parse_decimalInt (v : Int64) : simple_parse F (decimalInt v.toInt) = some (.int v) := by
  have hword : ∀ (w : Bytes) (b : UInt8), b ∈ w → b ≠ 45 ∧ isDigit b = false → decimalInt v.toInt ≠ w := by
    rintro w b hb hne rfl
    exact notMem_decimalInt hne hb
  rw [simple_parse, if_neg (hword _ 110 (by decide) (by decide)), if_neg, if_neg]
  · rw [if_pos (digitCount_decimalInt _), leadingZeros_decimalInt, if_neg (by decide), stoll_decimalInt,
      Option.map_some,
      Int64.ofInt_toInt]
  · rintro ⟨hhead, -⟩
    exact notMem_decimalInt (by decide) (List.mem_of_mem_head? hhead)
  · rintro (heq | heq)
    · exact hword _ 116 (by decide) (by decide) heq
    · exact hword _ 102 (by decide) (by decide) heq

variable {v : Simple} {n : Node} {values : List Node} {keyed : Bool}

lemma plain_of_isDigit {b : UInt8} (h : isDigit b = true) : Plain b := by
  refine ⟨?_, (not_isSpace_of_isDigit h).1, ?_⟩
  · rintro rfl
    exact absurd h (by decide)
  · intro hmem
    have hspl : ∀ b ∈ splChars, isDigit b = false := forall_mem_of_all rfl
    exact Bool.noConfusion (h.symm.trans (hspl b hmem))

lemma isScalar_decimalInt (z : Int) : (Lexeme.word (decimalInt z)).IsScalar := by
  constructor
  · cases z with
    | ofNat n => exact decimal_ne_nil n
    | negSucc n => exact List.cons_ne_nil _ _
  · intro b hb
    rcases of_mem_decimalInt hb with rfl | hdigit
    · decide
    · exact plain_of_isDigit hdigit

namespace Node

/-- The items of an array, or of an object with their keys. -/
lemma nodeEach_shapeEach (h : ∀ n ∈ values, (n.shape F).node F = some (n.setKey []))
    (hkeys : ∀ n ∈ values, if keyed then KeptBody n.key else n.key = []) :
    Shape.nodeEach F keyed (shapeEach F values) = some values := by
  induction values with
  | nil => rfl
  | cons n values ih =>
    rw [List.forall_mem_cons] at h hkeys
    have hmember : Shape.memberNode keyed (.text (n.shape F).key.bytes) (some (n.setKey [])) = some n := by
      have hkey := hkeys.1
      rw [Shape.memberNode, key_shape, Lexeme.bytes, Option.bind_some]
      cases keyed with
      | false =>
        rw [if_neg (by decide), Option.map_some, setKey_setKey, ← show n.key = [] from hkey, setKey_key]
      | true =>
        rw [if_pos rfl, keyOf_quoted hkey, Option.map_some, setKey_setKey, setKey_key]
    rw [shapeEach, Shape.nodeEach, h.1, hmember, ih h.2 hkeys.2]
    rfl

/-- The parser makes the tree of its tokens. -/
theorem Tree.node_shape (h : Tree KeptBody n) :
    (n.shape F).All Lexeme.IsScalar Lexeme.IsScalar ∧ (n.shape F).node F = some (n.setKey []) := by
  have hword : ∀ w : Bytes, w ≠ [] → w.all (fun b => decide (Plain b)) = true → (Lexeme.word w).IsScalar :=
    fun w hw hall => ⟨hw, forall_mem_of_all hall⟩
  induction h with
  | null => exact ⟨hword _ (by decide) rfl, rfl⟩
  | @bool key b => cases b <;> exact ⟨hword _ (by decide) rfl, rfl⟩
  | @int key v =>
    refine ⟨isScalar_decimalInt _, ?_⟩
    rw [shape, Shape.node, Simple.lexeme, Lexeme.bytes, nodeOf, simple_parse_decimalInt]
    rfl
  | @str key s hs =>
    refine ⟨hs.inside, ?_⟩
    rw [shape, Shape.node, Simple.lexeme, Lexeme.bytes, nodeOf, simple_parse_quoted hs]
    rfl
  | @array key values hkeys _ ih =>
    rw [shape, Shape.All, Shape.allEach_iff, Shape.node,
      nodeEach_shapeEach (fun n hn => (ih n hn).2) (fun n hn => (by simpa using hkeys n hn))]
    refine ⟨fun sh hsh => ⟨fun h => (by cases h), ?_⟩, rfl⟩
    rw [shapeEach_eq] at hsh
    obtain ⟨n, hn, rfl⟩ := List.mem_map.1 hsh
    exact (ih n hn).1
  | @object key values hnodup hkeys _ ih =>
    rw [shape, Shape.All, Shape.allEach_iff, Shape.node,
      nodeEach_shapeEach (fun n hn => (ih n hn).2) (fun n hn => (by simpa using hkeys n hn)), Option.bind_some,
        container,
      if_pos rfl, if_pos hnodup]
    refine ⟨fun sh hsh => ?_, rfl⟩
    rw [shapeEach_eq] at hsh
    obtain ⟨n, hn, rfl⟩ := List.mem_map.1 hsh
    rw [key_shape]
    exact ⟨fun _ => (hkeys n hn).inside, (ih n hn).1⟩

lemma isContainer_shape (h : n.IsContainer) : (n.shape F).IsContainer := by
  cases n with
  | value key v => exact absurd h id
  | array key values | object key values => trivial

lemma Tree.loads_layout (h : Tree KeptBody n) (hcontainer : n.IsContainer) (hkey : n.key = []) {text : Bytes}
    (htext : Layout isSpace (n.shape F).lexemes text) : loads F text = some n := by
  rw [Json.loads_layout h.node_shape.1 (isContainer_shape hcontainer) htext, h.node_shape.2, ← hkey, setKey_key]

end Node

/-- A tree with brackets around it is loaded from its tokens with any white space between them. -/
theorem loads_rendering (F : Floats) {n : Node} (h : n.Tree StringBody) (hcontainer : n.IsContainer) (hkey : n.key = [])
    {text : Bytes} (htext : Layout isBlank (n.shape F).lexemes text) : loads F text = some n :=
  (h.mono fun _ => StringBody.kept).loads_layout hcontainer hkey (htext.mono fun _ => isSpace_of_isBlank)

section SmallTree

/-- A text from its lexemes with the blanks in front of them. -/
lemma layout_of_pairs {blank : UInt8 → Bool} (ps : List (Bytes × Lexeme)) {w : Bytes}
    (hps : (ps.all fun p => p.1.all blank) = true) (hw : w.all blank = true) :
    Layout blank (ps.map Prod.snd) (ps.flatMap (fun p => p.1 ++ p.2.bytes) ++ w) := by
  induction ps with
  | nil => exact .nil (List.all_eq_true.1 hw)
  | cons p ps ih =>
    rw [List.all_cons, Bool.and_eq_true] at hps
    rw [List.map_cons, List.flatMap_cons, List.append_assoc, List.append_assoc]
    exact .cons (List.all_eq_true.1 hps.1) (ih hps.2)

/-- No value for any numeral with a fraction or an exponent. -/
def noFloats : Floats where
  stod _ := none
  strtod _ := 0
  to_string _ := []

def smallTree : Node :=
  .object [] [.array (ascii "a") [.value [] (.int 1), .value [] .null], .value (ascii "b") (.str (ascii "\\\"x"))]

lemma stringBody_letter {b : UInt8} (hb : 32 ≤ b ∧ b ≠ 34 ∧ b ≠ 92) : StringBody [b] := .char hb.1 hb.2.1 hb.2.2 .nil

lemma tree_smallTree : smallTree.Tree StringBody := by
  refine .object (by decide) ?_ ?_
  · simp only [List.forall_mem_cons]
    exact ⟨stringBody_letter (by decide), stringBody_letter (by decide), by simp⟩
  · simp only [List.forall_mem_cons]
    refine ⟨.array (by decide) ?_, .str (.escape (by decide) (stringBody_letter (by decide))), by simp⟩
    simp only [List.forall_mem_cons]
    exact ⟨.int, .null, by simp⟩

/-- Blanks in front of the lexemes of the tree. -/
def smallBlanks : List Bytes :=
  [[], [10, 32], [], [32], [9], [], [], [], [], [], [], [13, 10], []]

theorem loads_rendering_smallTree : loads noFloats
    (ascii "\x7b\n \"a\": [\t1,null],\"b\":\r\n\"\\\"x\"\x7d ") = some smallTree := by
  refine loads_rendering noFloats tree_smallTree trivial rfl ?_
  have hlayout := @layout_of_pairs isBlank (smallBlanks.zip (smallTree.shape noFloats).lexemes) [32]
    (by decide) (by decide)
  exact hlayout

end SmallTree

end CppExperiments.Json
