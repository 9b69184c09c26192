import CppExperiments.Json.Rendering

/-!
# Texts of trees

`Parser::dumps`, and how a tree whose strings are without quotes is laid out by it.
-/

namespace CppExperiments.Json

/-! ## The texts -/

/-- Quotes are escaped, and nothing else. -/
def simple_format (F : Floats) : Simple → Bytes
  | .str s => [34] ++ s.flatMap (fun ch => if ch = 34 then [92, ch] else [ch]) ++ [34]
  | .null => ascii "null"
  | .int v => decimalInt v.toInt
  | .double bits => F.to_string bits
  | .bool b => if b then ascii "true" else ascii "false"

def repeatStr (str : Bytes) (times : Nat) : Bytes := (List.replicate times str).flatten

def keyStr (pretty skipKey : Bool) (key : Bytes) : Bytes :=
  if skipKey then [] else [34] ++ key ++ [34, 58] ++ if pretty then [32] else []

/-- What stands in front of every item. -/
def spacing (pretty : Bool) (level : Nat) : Bytes := if pretty then 10 :: repeatStr [32, 32] level else []

/-- What stands in front of a closing bracket, with half of the spaces. -/
def closing (pretty : Bool) (level : Nat) : Bytes := if pretty then 10 :: repeatStr [32] (level - 1) else []

/-- The last comma is taken back. -/
def bracketed (pretty : Bool) (level : Nat) (front items : Bytes) (values : List Node) (ch : UInt8) : Bytes :=
  (if 0 < values.length then (front ++ items).dropLast else front ++ items) ++ closing pretty level ++ [ch]

mutual

/-- The text of a node whose items are at `level`. -/
def _dumps (F : Floats) (pretty skipKey : Bool) (level : Nat) : Node → Bytes
  | .value key v => keyStr pretty skipKey key ++ simple_format F v
  | .array key values =>
    bracketed pretty level (keyStr pretty skipKey key ++ [91]) (dumpsEach F pretty true level values) values 93
  | .object key values =>
    bracketed pretty level (keyStr pretty skipKey key ++ [123]) (dumpsEach F pretty false level values) values 125

def dumpsEach (F : Floats) (pretty skipKey : Bool) (level : Nat) : List Node → Bytes
  | [] => []
  | nxt :: values =>
    spacing pretty level ++ _dumps F pretty skipKey (level + 1) nxt ++ [44] ++ dumpsEach F pretty skipKey level values

end

def dumps (F : Floats) (pretty : Bool) (root : Node) : Bytes := _dumps F pretty true 1 root

/-! ## Layouts of lists -/

variable {blank : UInt8 → Bool} {ls ls' : List Lexeme} {text text' w : Bytes}

lemma Layout.blank_append (hw : ∀ b ∈ w, blank b = true) (h : Layout blank ls text) : Layout blank ls (w ++ text) := by
  cases h with
  | nil hw' => exact .nil (List.forall_mem_append.2 ⟨hw, hw'⟩)
  | cons hw' h =>
    rw [← List.append_assoc]
    exact .cons (List.forall_mem_append.2 ⟨hw, hw'⟩) h

lemma Layout.append (h : Layout blank ls text) (h' : Layout blank ls' text') :
    Layout blank (ls ++ ls') (text ++ text') := by
  induction h with
  | nil hw => exact h'.blank_append hw
  | cons hw _ ih =>
    rw [List.append_assoc, List.append_assoc]
    exact .cons hw ih

lemma Layout.singleton (blank : UInt8 → Bool) (l : Lexeme) : Layout blank [l] l.bytes := by
  have h : Layout blank [l] ([] ++ (l.bytes ++ [])) := .cons (fun b hb => by cases hb) (.nil fun b hb => by cases hb)
  rwa [List.nil_append, List.append_nil] at h

/-! ## Texts without quotes in strings -/

namespace Node

mutual

/-- The values of a tree, in their order. -/
def leaves : Node → List Simple
  | value _ v => [v]
  | array _ values | object _ values => leavesEach values

def leavesEach : List Node → List Simple
  | [] => []
  | n :: values => leaves n ++ leavesEach values

end

lemma leavesEach_eq (values : List Node) : leavesEach values = values.flatMap leaves := by
  induction values with
  | nil => rfl
  | cons n values ih => rw [leavesEach, ih, List.flatMap_cons]

lemma mem_leavesEach {values : List Node} {n : Node} {v : Simple} (hn : n ∈ values) (hv : v ∈ n.leaves) :
    v ∈ leavesEach values := by
  rw [leavesEach_eq]
  exact List.mem_flatMap.2 ⟨n, hn, hv⟩

/-- No string among the values has a quote, escaped or not. Keys may have some. -/
def Quoteless (n : Node) : Prop := ∀ s, Simple.str s ∈ n.leaves → 34 ∉ s

/-- No floating-point number is among the values. -/
def Floatless (n : Node) : Prop := ∀ bits, Simple.double bits ∉ n.leaves

end Node

variable {F : Floats} {pretty skipKey : Bool} {level : Nat} {values : List Node} {n : Node} {s : Bytes}

lemma escaped_of_notMem (h : 34 ∉ s) : s.flatMap (fun ch => if ch = 34 then [92, ch] else [ch]) = s := by
  induction s with
  | nil => rfl
  | cons b s ih =>
    rw [List.mem_cons, not_or] at h
    rw [List.flatMap_cons, if_neg (Ne.symm h.1), ih h.2, List.singleton_append]

lemma isSpace_of_mem_repeatStr {str : Bytes} {times : Nat} (h : ∀ b ∈ str, isSpace b = true) :
    ∀ b ∈ repeatStr str times, isSpace b = true := by
  intro b hb
  obtain ⟨bs, hbs, hb⟩ := List.mem_flatten.1 hb
  exact h b ((List.eq_of_mem_replicate hbs) ▸ hb)

lemma isSpace_of_mem_spacing (pretty : Bool) (level : Nat) : ∀ b ∈ spacing pretty level, isSpace b = true := by
  cases pretty with
  | false => exact fun b hb => by cases hb
  | true => exact List.forall_mem_cons.2 ⟨rfl, isSpace_of_mem_repeatStr (forall_mem_of_all rfl)⟩

lemma isSpace_of_mem_closing (pretty : Bool) (level : Nat) : ∀ b ∈ closing pretty level, isSpace b = true := by
  cases pretty with
  | false => exact fun b hb => by cases hb
  | true => exact List.forall_mem_cons.2 ⟨rfl, isSpace_of_mem_repeatStr (forall_mem_of_all rfl)⟩

lemma layout_keyStr (pretty skipKey : Bool) (key : Bytes) :
    Layout isSpace (Shape.keyLexemes (!skipKey) (.str key)) (keyStr pretty skipKey key) := by
  cases skipKey with
  | true => exact .nil fun b hb => by cases hb
  | false =>
    have hkey := (Layout.singleton isSpace (.str key)).append (Layout.singleton isSpace (.mark 58))
    have hspace : Layout isSpace [] (if pretty then [32] else []) := by
      cases pretty with
      | true => exact .nil (forall_mem_of_all rfl)
      | false => exact .nil fun b hb => by cases hb
    have h := hkey.append hspace
    simpa [Shape.keyLexemes, keyStr, Lexeme.bytes] using h

lemma dumpsEach_ne_nil (h : values ≠ []) : dumpsEach F pretty skipKey level values ≠ [] := by
  cases values with
  | nil => exact absurd rfl h
  | cons n values => simp [dumpsEach]

/-- The items with a comma behind every one but the last. -/
lemma layout_dumpsEach (hvalues : values ≠ [])
    (h : ∀ n ∈ values, Layout isSpace (Shape.keyLexemes (!skipKey) (.str n.key) ++ (n.shape F).lexemes)
      (_dumps F pretty skipKey (level + 1) n)) :
    Layout isSpace (Shape.lexemesEach (!skipKey) true (Node.shapeEach F values))
      (dumpsEach F pretty skipKey level values).dropLast := by
  induction values with
  | nil => exact absurd rfl hvalues
  | cons n values ih =>
    rw [List.forall_mem_cons] at h
    have hfirst := h.1.blank_append (isSpace_of_mem_spacing pretty level)
    rw [Node.shapeEach, Shape.lexemesEach, if_pos rfl, List.nil_append, Node.key_shape, dumpsEach]
    cases values with
    | nil =>
      rw [dumpsEach, List.append_nil, List.dropLast_concat, Node.shapeEach, Shape.lexemesEach, List.append_nil]
      exact hfirst
    | cons n' values =>
      have hrest := (Layout.singleton isSpace (.mark 44)).append (ih (List.cons_ne_nil _ _) h.2)
      rw [List.dropLast_append_of_ne_nil (dumpsEach_ne_nil (List.cons_ne_nil _ _)), List.append_assoc _ [44]]
      exact hfirst.append hrest

lemma layout_bracketed (skipKey : Bool) (ch : UInt8) {front : Bytes} (hfront : Layout isSpace ls front)
    (h : ∀ n ∈ values, Layout isSpace (Shape.keyLexemes (!skipKey) (.str n.key) ++ (n.shape F).lexemes)
      (_dumps F pretty skipKey (level + 1) n)) :
    Layout isSpace (ls ++ Shape.lexemesEach (!skipKey) true (Node.shapeEach F values) ++ [.mark ch])
      (bracketed pretty level front (dumpsEach F pretty skipKey level values) values ch) := by
  have hback : Layout isSpace [.mark ch] (closing pretty level ++ [ch]) :=
    (Layout.singleton isSpace (.mark ch)).blank_append (isSpace_of_mem_closing pretty level)
  rw [bracketed, List.append_assoc _ (closing pretty level)]
  apply Layout.append _ hback
  by_cases hvalues : values = []
  · rw [if_neg (by simp [hvalues]), hvalues, dumpsEach, List.append_nil, Node.shapeEach, Shape.lexemesEach,
      List.append_nil]
    exact hfront
  · rw [if_pos (List.length_pos_of_ne_nil hvalues), List.dropLast_append_of_ne_nil (dumpsEach_ne_nil hvalues)]
    exact hfront.append (layout_dumpsEach hvalues h)

/-- A tree is laid out as JSON if its strings are without quotes. -/
theorem Node.Tree.layout_dumps (F : Floats) (pretty : Bool) {B : Bytes → Prop} (h : n.Tree B) (hn : n.Quoteless)
    (skipKey : Bool) (level : Nat) :
    Layout isSpace (Shape.keyLexemes (!skipKey) (.str n.key) ++ (n.shape F).lexemes)
      (_dumps F pretty skipKey level n) := by
  induction h generalizing skipKey level with
  | null => exact (layout_keyStr _ _ _).append (Layout.singleton isSpace (.word (ascii "null")))
  | @bool key b => exact (layout_keyStr _ _ _).append (Layout.singleton isSpace (.word (if b then ascii "true" else ascii "false")))
  | @int key v => exact (layout_keyStr _ _ _).append (Layout.singleton isSpace (.word (decimalInt v.toInt)))
  | @str key s _ =>
    have hs : 34 ∉ s := hn s List.mem_cons_self
    rw [_dumps, simple_format, escaped_of_notMem hs]
    exact (layout_keyStr _ _ _).append (Layout.singleton isSpace (.str s))
  | @array key values _ _ ih =>
    have hvalues := layout_bracketed true 93
      ((layout_keyStr pretty skipKey key).append (Layout.singleton isSpace (.mark 91)))
      (fun n hmem => ih n hmem (fun s hs => hn s (mem_leavesEach hmem hs)) true (level + 1))
    rw [_dumps, shape, Shape.lexemes, ← List.singleton_append, List.append_assoc [Lexeme.mark 91], ← List.append_assoc,
      ← List.append_assoc]
    exact hvalues
  | @object key values _ _ _ ih =>
    have hvalues := layout_bracketed false 125
      ((layout_keyStr pretty skipKey key).append (Layout.singleton isSpace (.mark 123)))
      (fun n hmem => ih n hmem (fun s hs => hn s (mem_leavesEach hmem hs)) false (level + 1))
    rw [_dumps, shape, Shape.lexemes, ← List.singleton_append, List.append_assoc [Lexeme.mark 123], ← List.append_assoc,
      ← List.append_assoc]
    exact hvalues

end CppExperiments.Json
