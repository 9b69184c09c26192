import CppExperiments.Xml.Parser

/-!
# Documents that end with a line feed

The characters since the last token have to be none at the end of a document, and a line feed is one of them.
-/

namespace CppExperiments.Xml

open Parsing

variable {s s' : Parsing} {preserveSpace : Bool} {raw token : Bytes} {ch b : UInt8}

/-- A token that ends with another character has not come to its end. -/
lemma not_suffix_of_ne (h : b ≠ ch) (token acc : Bytes) : ¬ token ++ [b] <:+ acc ++ [ch] := fun hsuffix => by
  obtain ⟨front, heq⟩ := hsuffix
  rw [← List.append_assoc] at heq
  exact h (List.cons.inj (List.append_inj_right' heq rfl)).1

/-- What is read at a character that ends no token stays. -/
lemma acc_ne_nil_of_step (hch : ch ≠ 60) (hend : ch ≠ 62) (h : step preserveSpace s ch = some s') : s'.acc ≠ [] := by
  have hne : s.acc ++ [ch] ≠ [] := List.append_ne_nil_of_right_ne_nil _ (List.cons_ne_nil ch [])
  have hcomment : ¬ ascii "-->" <:+ s.acc ++ [ch] := not_suffix_of_ne (Ne.symm hend) (ascii "--") s.acc
  have hcdata : ¬ ascii "]]>" <:+ s.acc ++ [ch] := not_suffix_of_ne (Ne.symm hend) (ascii "]]") s.acc
  have hpi : ¬ ascii "?>" <:+ s.acc ++ [ch] := not_suffix_of_ne (Ne.symm hend) (ascii "?") s.acc
  have hnode : ¬ ascii ">" <:+ s.acc ++ [ch] := not_suffix_of_ne (Ne.symm hend) [] s.acc
  rw [step] at h
  dsimp only at h
  -- Only the ends of tokens clear what was read.
  simp only [hch, hcomment, hcdata, hpi, hnode, and_false, if_false] at h
  split at h
  · obtain rfl := Option.some.inj h
    exact hne
  split at h
  · obtain rfl := Option.some.inj h
    exact hne
  split at h
  · exact absurd h nofun
  split at h
  · obtain rfl := Option.some.inj h
    exact hne
  split at h
  · obtain rfl := Option.some.inj h
    exact hne
  split at h
  · obtain rfl := Option.some.inj h
    exact hne
  · obtain rfl := Option.some.inj h
    exact hne

lemma parseTags_concat (hch : ch ≠ 60) (hend : ch ≠ 62) (preserveSpace : Bool) (raw : Bytes) :
    parseTags preserveSpace (raw ++ [ch]) = none := by
  rw [parseTags, List.foldlM_append]
  cases hraw : raw.foldlM (step preserveSpace) start with
  | none => rfl
  | some s =>
    change ((step preserveSpace s ch >>= pure) >>= _) = none
    rw [bind_pure]
    cases hstep : step preserveSpace s ch with
    | none => rfl
    | some s' => exact if_pos (Or.inr (acc_ne_nil_of_step hch hend hstep))

/-- A document whose last character is no end of a tag is not read. -/
lemma parse_concat (hch : ch ≠ 60) (hend : ch ≠ 62) (raw : Bytes) (preserveSpace : Bool) :
    XMLTree.parse (60 :: (raw ++ [ch])) preserveSpace = none := by
  have hdocument : parseDocument preserveSpace (60 :: (raw ++ [ch])) = none := by
    rw [parseDocument, if_neg (fun h => h.2 rfl), if_pos rfl, ← List.cons_append, parseTags_concat hch hend]
  rw [XMLTree.parse, hdocument]
  rfl

lemma toString_node (name : Bytes) (attrs : List (Bytes × Bytes)) (text : Option Bytes) (children : List XMLNode) :
    ∃ rest, (XMLNode.mk name .NODE attrs text children).toString 0 = 60 :: rest := by
  rw [XMLNode.toString]
  exact ⟨_, rfl⟩

lemma print_eq (xmlDeclaration : Option XMLDeclaration) (name : Bytes) (attrs : List (Bytes × Bytes))
    (text : Option Bytes)
    (children : List XMLNode) :
    ∃ raw, XMLTree.print xmlDeclaration (.mk name .NODE attrs text children) = 60 :: (raw ++ [10]) := by
  obtain ⟨rest, hrest⟩ := toString_node name attrs text children
  rw [XMLTree.print, hrest]
  cases xmlDeclaration with
  | none => exact ⟨rest, rfl⟩
  | some dec =>
    refine ⟨dec.toString.tail ++ [10] ++ 60 :: rest, ?_⟩
    rw [Option.elim_some, List.append_assoc, List.append_assoc, List.append_assoc]
    rfl

/-- No tree is read back: the line feed behind its root is not taken for white space. -/
theorem parse_print_eq_none (xmlDeclaration : Option XMLDeclaration) (name : Bytes) (attrs : List (Bytes × Bytes))
    (text : Option Bytes)
    (children : List XMLNode) (preserveSpace : Bool) :
    XMLTree.parse (XMLTree.print xmlDeclaration (.mk name .NODE attrs text children)) preserveSpace = none := by
  obtain ⟨raw, hraw⟩ := print_eq xmlDeclaration name attrs text children
  rw [hraw, parse_concat (by decide) (by decide)]

/-- An element with a text. -/
theorem not_parse_print_greeting : XMLTree.parse (XMLTree.print none (.mk (ascii "a") .NODE [] none [.TextNode (ascii "x")])) false ≠
    some ⟨none, some (.mk (ascii "a") .NODE [] none [.TextNode (ascii "x")])⟩ := by
  have hprint : XMLTree.print none (.mk (ascii "a") .NODE [] none [.TextNode (ascii "x")]) =
      60 :: (ascii "a>\n\tx\n</a>" ++ [10]) := by
    simp only [XMLTree.print, XMLNode.toString, XMLNode.childrenString, XMLNode.TextNode]
    rfl
  rw [hprint, parse_concat (by decide) (by decide)]
  exact nofun

end CppExperiments.Xml
